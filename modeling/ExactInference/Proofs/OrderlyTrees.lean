import ExactInference.Proofs.TreeView

/-!
# Trees under way

What holds of a tree at every moment of message passing, whatever its links are: they may make
cycles, lead from a clique to itself, or join cliques whose variables have no states. A clique has
folded in messages of neighbors, each once and after it was sent, and a message has the variables
that both ends share. So folding what has arrived never fails, and a message for which everything
has arrived is sent, unless a variable without states is in the way.
-/

namespace ExactInference

variable {W L : Type}

theorem foldl_addOnce {ns fs : List Int} (hns : ns.Nodup) (hdis : ∀ n ∈ ns, n ∉ fs) :
    ns.foldl addOnce fs = fs ++ ns := by
  induction ns generalizing fs with
  | nil => simp
  | cons n ns ih =>
    obtain ⟨hn, hns⟩ := List.nodup_cons.1 hns
    have hfresh : addOnce fs n = fs ++ [n] := by
      simp [addOnce, hdis n List.mem_cons_self]
    rw [List.foldl_cons, hfresh, ih hns fun m hm => ?_, List.append_assoc]
    · rfl
    · simp only [List.mem_append, List.mem_singleton, not_or]
      exact ⟨hdis m (List.mem_cons_of_mem n hm), fun he => hn (he ▸ hm)⟩

namespace CliqueTree

variable {t u : CliqueTree W L} {a b i : ℕ} {c : Clique W L} {axes : List Axis} {mode : Mode}
  {ns : List Int}

theorem folding_nil (hc : t.cliques[a]? = some c) : t.folding a c.marginal [] = t := by
  have hcliques : (t.folding a c.marginal []).cliques = t.cliques := by
    refine List.ext_getElem? fun i => ?_
    rw [folding, getElem?_update]
    split
    · next hai =>
      subst hai
      rw [hc]
      rfl
    · rfl
  cases t
  simp only [folding, update] at hcliques ⊢
  rw [hcliques]

/-- The messages that some neighbors have sent to a clique, in ascending order of the neighbors. -/
def arrived (t : CliqueTree W L) (a : ℕ) (ns : List Int) : List (Factor W L) :=
  (ascending ns).filterMap fun n => t.message n.toNat a

/-- Whether some neighbors have all sent their messages. -/
def Ready (t : CliqueTree W L) (a : ℕ) (ns : List Int) : Prop :=
  ∀ n ∈ ns, ∃ k : ℕ, n = k ∧ k < t.size ∧ t.Sent k a

theorem exists_of_mem_arrived (h : t.Ready a ns) {m : Factor W L} (hm : m ∈ t.arrived a ns) :
    ∃ k : ℕ, (k : Int) ∈ ns ∧ t.message k a = some m := by
  obtain ⟨n, hn, hm⟩ := List.mem_filterMap.1 hm
  have hn := (arrange_perm _ _).mem_iff.1 hn
  obtain ⟨k, rfl, -⟩ := h n hn
  exact ⟨k, hn, by simpa using hm⟩

/-- The message that a clique has to fold in from a neighbor. -/
def received (t : CliqueTree W L) (i n : Int) : Except Fault (Factor W L) := do
  match ← t.message? n i with
  | some m => .ok m
  | none => .error (.messageMissing n i)

theorem received_eq_ok {k : ℕ} {m : Factor W L} (hk : k < t.size) (hm : t.message k a = some m) :
    t.received a k = .ok m := by
  rw [received, message?_eq_ok hk, hm]
  rfl

theorem received_eq_error {k : ℕ} (hk : k < t.size) (hm : ¬ t.Sent k a) :
    t.received a k = .error (.messageMissing k a) := by
  have hnone : t.message k a = none := by simpa [Sent] using hm
  rw [received, message?_eq_ok hk, hnone]
  rfl

/-- What holds of a tree at every moment of message passing, whatever its links are. -/
structure Orderly (axes : List Axis) (t : CliqueTree W L) : Prop where
  /-- The tree is meshed. -/
  meshed : t.Meshed axes
  /-- The marginals have not been taken out. -/
  isOpen : t.phase ≠ .extracted
  /-- A message has the axes of the variables that both ends share. -/
  message_scope : ∀ {a b : ℕ} {m : Factor W L}, t.message a b = some m →
    m.scope.Within axes ∧ m.vars = t.scopeOf a ∩ t.scopeOf b
  /-- A message is folded in once. -/
  folded_nodup : ∀ {i : ℕ} {c : Clique W L}, t.cliques[i]? = some c → c.folded.Nodup
  /-- Only messages from neighbors are folded in, after they were sent. -/
  folded_sent : ∀ {i : ℕ} {c : Clique W L} {n : Int}, t.cliques[i]? = some c → n ∈ c.folded →
    ∃ k : ℕ, n = k ∧ t.Borders i k ∧ t.Sent k i
  /-- A running marginal has the axes of the clique's factor. -/
  marginal_scope : ∀ {i : ℕ} {c : Clique W L}, t.cliques[i]? = some c →
    c.marginal.scope = c.factor.scope
  /-- Receivers are numbered as cliques are. -/
  receivers : ∀ {i : ℕ} {c : Clique W L} {n : Int}, t.cliques[i]? = some c → n ∈ c.messages.keys →
    ∃ k : ℕ, n = k

/-- Messages along links that have arrived at a clique and that it has not folded in. -/
def Outstanding (t : CliqueTree W L) (a : ℕ) (c : Clique W L) (ns : List Int) : Prop :=
  ∀ n ∈ ns, n ∉ c.folded ∧ ∃ k : ℕ, n = k ∧ t.Borders a k ∧ t.Sent k a

namespace Orderly

/-- Beginning to pass messages changes the stage and nothing else. -/
theorem begin (h : Orderly axes t) : Orderly axes { t with phase := .inProgress } where
  meshed := h.meshed.of_frame_eq rfl
  isOpen := fun he => by cases he
  message_scope := h.message_scope
  folded_nodup := h.folded_nodup
  folded_sent := h.folded_sent
  marginal_scope := h.marginal_scope
  receivers := h.receivers

/-- The axes of a running marginal. -/
theorem within_marginal (h : Orderly axes t) (hc : t.cliques[a]? = some c) :
    c.marginal.scope.Within axes := by
  rw [h.marginal_scope hc]
  exact h.meshed.within hc

/-- The variables of a running marginal. -/
theorem mem_names_marginal (h : Orderly axes t) (hc : t.cliques[a]? = some c) {v : String} :
    v ∈ c.marginal.names ↔ v ∈ t.scopeOf a := by
  rw [scopeOf_eq hc, Factor.mem_vars, Factor.names, Factor.names, h.marginal_scope hc]

theorem ready (h : Orderly axes t) (hns : t.Outstanding a c ns) : t.Ready a ns := fun n hn => by
  obtain ⟨-, k, hk, hborder, hsent⟩ := hns n hn
  exact ⟨k, hk, (h.meshed.symm hborder).lt_size, hsent⟩

/-- What has arrived fits into the running marginal. -/
theorem fits_of_mem_arrived (h : Orderly axes t) (hc : t.cliques[a]? = some c)
    (hns : t.Outstanding a c ns) {m : Factor W L} (hm : m ∈ t.arrived a ns) :
    m.scope.Within axes ∧ ∀ v ∈ m.names, v ∈ c.marginal.names := by
  obtain ⟨k, -, hk⟩ := exists_of_mem_arrived (h.ready hns) hm
  refine ⟨(h.message_scope hk).1, fun v hv => ?_⟩
  rw [← Factor.mem_vars, (h.message_scope hk).2] at hv
  exact (h.mem_names_marginal hc).2 (Finset.mem_of_mem_inter_right hv)

theorem cliques_folding (hc : t.cliques[a]? = some c) (hns : ns.Nodup)
    (hfold : t.Outstanding a c ns) (m : Factor W L) :
    (t.folding a m ns).cliques[a]? = some { c with marginal := m, folded := c.folded ++ ns } := by
  rw [cliques_folding_self hc m ns, foldl_addOnce hns fun n hn => (hfold n hn).1]

/-- A marginal with the same axes may take the place of the old one. -/
theorem folding (h : Orderly axes t) (hc : t.cliques[a]? = some c) (hns : ns.Nodup)
    (hfold : t.Outstanding a c ns) {m : Factor W L} (hscope : m.scope = c.marginal.scope) :
    Orderly axes (t.folding a m ns) := by
  have hself := cliques_folding hc hns hfold m
  have hframe := frame_folding t a m ns
  -- A clique of the new tree is the one that folded, or an old one.
  have hcases : ∀ {i d}, (t.folding a m ns).cliques[i]? = some d →
      i = a ∧ d = { c with marginal := m, folded := c.folded ++ ns } ∨ t.cliques[i]? = some d := by
    intro i d hd
    by_cases hi : i = a
    · subst hi
      rw [hself] at hd
      exact Or.inl ⟨rfl, (Option.some.inj hd).symm⟩
    · exact Or.inr (by rwa [cliques_folding_of_ne t hi] at hd)
  constructor
  case meshed => exact h.meshed.of_frame_eq hframe.symm
  case isOpen => exact h.isOpen
  case message_scope =>
    intro u w g hg
    rw [message_folding] at hg
    rw [scopeOf_eq_of_frame_eq hframe]
    exact h.message_scope hg
  case folded_nodup =>
    intro i d hd
    rcases hcases hd with ⟨rfl, rfl⟩ | hd
    · exact List.nodup_append.2 ⟨h.folded_nodup hc, hns, fun n hn k hk he =>
        (hfold k hk).1 (he ▸ hn)⟩
    · exact h.folded_nodup hd
  case folded_sent =>
    intro i d n hd hn
    rw [borders_eq_of_frame_eq hframe, sent_folding]
    rcases hcases hd with ⟨rfl, rfl⟩ | hd
    · rcases List.mem_append.1 hn with hn | hn
      · exact h.folded_sent hc hn
      · exact (hfold n hn).2
    · exact h.folded_sent hd hn
  case marginal_scope =>
    intro i d hd
    rcases hcases hd with ⟨rfl, rfl⟩ | hd
    · exact hscope.trans (h.marginal_scope hc)
    · exact h.marginal_scope hd
  case receivers =>
    intro i d n hd hn
    rcases hcases hd with ⟨rfl, rfl⟩ | hd
    · exact h.receivers hc hn
    · exact h.receivers hd hn

/-- Storing a message over the shared variables leaves an orderly tree. -/
theorem sending (h : Orderly axes t) {m : Factor W L} (ha : a < t.size)
    (hwithin : m.scope.Within axes) (hvars : m.vars = t.scopeOf a ∩ t.scopeOf b) :
    Orderly axes (t.sending a b m) := by
  have hframe := frame_sending t a b m
  constructor
  case meshed => exact h.meshed.of_frame_eq hframe.symm
  case isOpen => exact h.isOpen
  case message_scope =>
    intro u w g hg
    rw [scopeOf_eq_of_frame_eq hframe]
    by_cases huw : u = a ∧ w = b
    · obtain ⟨rfl, rfl⟩ := huw
      rw [message_sending_self ha] at hg
      cases hg
      exact ⟨hwithin, hvars⟩
    · rw [message_sending_of_ne t huw] at hg
      exact h.message_scope hg
  case folded_nodup =>
    intro i d hd
    obtain ⟨e, he, -, -, hf, -⟩ := exists_of_cliques_sending hd
    rw [hf]
    exact h.folded_nodup he
  case folded_sent =>
    intro i d n hd hn
    obtain ⟨e, he, -, -, hf, -⟩ := exists_of_cliques_sending hd
    obtain ⟨k, hk, hik, hki⟩ := h.folded_sent he (hf ▸ hn)
    rw [borders_eq_of_frame_eq hframe, sent_sending ha]
    exact ⟨k, hk, hik, Or.inl hki⟩
  case marginal_scope =>
    intro i d hd
    obtain ⟨e, he, hfactor, hmarginal, -, -⟩ := exists_of_cliques_sending hd
    rw [hfactor, hmarginal]
    exact h.marginal_scope he
  case receivers =>
    intro i d n hd hn
    rw [CliqueTree.sending, getElem?_update] at hd
    split at hd
    · obtain ⟨e, he, rfl⟩ := Option.map_eq_some_iff.1 hd
      rcases OrderedMap.mem_keys_insert.1 hn with hn | rfl
      · exact h.receivers he hn
      · exact ⟨b, rfl⟩
    · exact h.receivers hd hn

/-- The neighbors that a clique has not folded in. -/
theorem mem_unfolded (h : Orderly axes t) (hc : t.cliques[i]? = some c) {n : Int} :
    n ∈ c.unfolded ↔ n ∉ c.folded ∧ ∃ k : ℕ, n = k ∧ t.Borders i k := by
  rw [Clique.unfolded, List.mem_filter, h.meshed.mem_neighbors hc, and_comm]
  simp

theorem unfolded_nodup (h : Orderly axes t) (hc : t.cliques[i]? = some c) :
    c.unfolded.Nodup := (h.meshed.neighbors_nodup hc).filter _

/-- The messages that a sender has to fold in first: all outstanding ones, but that of the receiver
only if it has arrived. -/
theorem pending_eq_ok (h : Orderly axes t) (hc : t.cliques[a]? = some c) (hborder : t.Borders a b) :
    ∃ ns, Passing.pending t a b = .ok ns ∧ ns.Nodup ∧ ∀ n, n ∈ ns ↔
      n ∉ c.folded ∧ ∃ k : ℕ, n = k ∧ t.Borders a k ∧ (k = b → t.Sent b a) := by
  have hmessage : t.message? (b : Int) (a : Int) = .ok (t.message b a) :=
    message?_eq_ok (h.meshed.symm hborder).lt_size
  have hnodup := h.unfolded_nodup hc
  cases hm : t.message b a with
  | some m =>
    have hsent : t.Sent b a := by simp [Sent, hm]
    refine ⟨c.unfolded, ?_, hnodup, fun n => ?_⟩
    · rw [hm] at hmessage
      rw [Passing.pending, cliqueAt_eq_ok hc]
      simp only [bind, Except.bind, hmessage]
    · rw [h.mem_unfolded hc]
      simp [hsent]
  | none =>
    have hsent : ¬ t.Sent b a := by simp [Sent, hm]
    refine ⟨c.unfolded.filter (· ≠ (b : Int)), ?_, hnodup.filter _, fun n => ?_⟩
    · rw [hm] at hmessage
      rw [Passing.pending, cliqueAt_eq_ok hc]
      simp only [bind, Except.bind, hmessage]
    · simp only [List.mem_filter, h.mem_unfolded hc, decide_eq_true_eq, hsent, imp_false]
      constructor
      · rintro ⟨⟨hn, k, rfl, hk⟩, hb⟩
        exact ⟨hn, k, rfl, hk, fun he => hb (he ▸ rfl)⟩
      · rintro ⟨hn, k, rfl, hk, hb⟩
        exact ⟨⟨hn, k, rfl, hk⟩, fun he => hb (by exact_mod_cast he)⟩

/-- What a sender has to fold in first, once all of it has arrived. -/
theorem pending_of_arrived (h : Orderly axes t) (hc : t.cliques[a]? = some c)
    (hborder : t.Borders a b) (hall : ∀ k, t.Borders a k → k ≠ b → t.Sent k a) :
    ∃ ns, Passing.pending t a b = .ok ns ∧ ns.Nodup ∧ t.Outstanding a c ns ∧
      ∀ n, n ∈ c.folded ++ ns ↔ ∃ k : ℕ, n = k ∧ t.Borders a k ∧ (k = b → t.Sent b a) := by
  obtain ⟨ns, hns, hnodup, hmem⟩ := h.pending_eq_ok hc hborder
  refine ⟨ns, hns, hnodup, fun n hn => ?_, fun n => ?_⟩
  · obtain ⟨hout, k, hk, hak, hkb⟩ := (hmem n).1 hn
    refine ⟨hout, k, hk, hak, ?_⟩
    by_cases he : k = b
    · exact he ▸ hkb he
    · exact hall k hak he
  · rw [List.mem_append, hmem]
    constructor
    · rintro (hn | ⟨-, hn⟩)
      · obtain ⟨k, hk, hak, hka⟩ := h.folded_sent hc hn
        exact ⟨k, hk, hak, fun he => he ▸ hka⟩
      · exact hn
    · intro hn
      by_cases hin : n ∈ c.folded
      · exact Or.inl hin
      · exact Or.inr ⟨hin, hn⟩

section MessageFrom

variable (h : Orderly axes t) (hc : t.cliques[a]? = some c) {s : Separator}
  (hs : ∀ v, v ∈ s.shared ↔ v ∈ t.scopeOf a ∩ t.scopeOf b)

include h hc hs

/-- The variables that a message drops are those that the receiver does not hold. -/
theorem toFinset_dropped :
    (c.marginal.names.filter fun v => !s.shared.contains v).toFinset
      = t.scopeOf a \ t.scopeOf b := by
  ext v
  simp only [List.mem_toFinset, List.mem_filter, Bool.not_eq_true', List.contains_eq_mem,
    decide_eq_false_iff_not, h.mem_names_marginal hc, hs, Finset.mem_inter, Finset.mem_sdiff]
  tauto

end MessageFrom

end Orderly

/-- A tree before any message. -/
structure Fresh (t : CliqueTree W L) : Prop where
  /-- No message has been sent or folded. -/
  fresh : ∀ {i : ℕ} {c : Clique W L}, t.cliques[i]? = some c →
    c.marginal = c.factor ∧ c.folded = [] ∧ c.messages = OrderedMap.empty
  /-- The tree is just built. -/
  phase_eq : t.phase = .built

namespace Fresh

theorem not_sent (h : t.Fresh) (a b : ℕ) : ¬ t.Sent a b := by
  intro hab
  cases hc : t.cliques[a]? with
  | none => simp [Sent, message, hc] at hab
  | some c =>
    rw [Sent, message_eq hc, (h.fresh hc).2.2] at hab
    simp at hab

/-- A meshed tree is orderly before any message. -/
theorem orderly (h : t.Fresh) (hmeshed : t.Meshed axes) : Orderly axes t where
  meshed := hmeshed
  isOpen := by
    rw [h.phase_eq]
    exact fun he => by cases he
  message_scope {a b m} hm := absurd (by simp [Sent, hm]) (h.not_sent a b)
  folded_nodup hc := by
    rw [(h.fresh hc).2.1]
    exact List.nodup_nil
  folded_sent hc hn := by
    rw [(h.fresh hc).2.1] at hn
    simp at hn
  marginal_scope hc := by rw [(h.fresh hc).1]
  receivers hc hn := by
    rw [(h.fresh hc).2.2] at hn
    simp [OrderedMap.empty, OrderedMap.keys] at hn

end Fresh

/-- The state after the event of a message was reported. -/
def announced (p : Passing W L) (a b : ℕ) : Passing W L :=
  { p with events := p.events ++ [.passing a b] }

section Pass

open PassingStep

/-- A message that is due: it was not sent, and whatever it has to take in has arrived. -/
def Due (t : CliqueTree W L) (i b : ℕ) : Prop :=
  t.Borders i b ∧ ¬ t.Sent i b ∧ ∀ k, t.Borders i k → k ≠ b → t.Sent k i

end Pass

variable [WeightScale W]

/-- If some neighbors have all sent their messages, then one has arrived from each of them. -/
theorem exists_arrived (h : t.Ready a ns) :
    ∃ m : Int → Factor W L, t.arrived a ns = (ascending ns).map m ∧
      ∀ n ∈ ascending ns, ∃ k : ℕ, n = k ∧ k < t.size ∧ t.message k a = some (m n) := by
  have : Nonempty (Factor W L) := ⟨.plain (Table.scalar WeightScale.one)⟩
  have hsent : ∀ n ∈ ascending ns, ∃ m, ∃ k : ℕ, n = k ∧ k < t.size ∧ t.message k a = some m := by
    intro n hn
    obtain ⟨k, rfl, hk, hsent⟩ := h n ((arrange_perm _ _).mem_iff.1 hn)
    obtain ⟨m, hm⟩ := Option.isSome_iff_exists.1 hsent
    exact ⟨m, k, rfl, hk, hm⟩
  choose! m hm using hsent
  have hmessage : ∀ n ∈ ascending ns, t.message n.toNat a = some (m n) := fun n hn => by
    obtain ⟨k, hk, -, hmk⟩ := hm n hn
    rw [hk, Int.toNat_natCast, hmk, hk]
  refine ⟨m, ?_, hm⟩
  rw [arrived, List.filterMap_congr hmessage]
  exact congrFun List.filterMap_eq_map _

theorem mapM_received_eq_ok (h : t.Ready a ns) :
    (ascending ns).mapM (t.received a) = .ok (t.arrived a ns) := by
  obtain ⟨m, harrived, hm⟩ := exists_arrived h
  rw [harrived]
  refine mapM_eq_ok fun n hn => ?_
  obtain ⟨k, rfl, hk, hmk⟩ := hm n hn
  exact received_eq_ok hk hmk

variable [WeightScale L] [LogConversion W L]

/-- A fold of an open tree reads all messages before it changes anything. -/
theorem fold_eq (hopen : t.phase ≠ .extracted) (hc : t.cliques[a]? = some c) (ns : List Int) :
    t.fold a ns = (ascending ns).mapM (t.received a) >>= fun messages =>
      if messages.isEmpty then .ok (t, c.marginal)
      else c.marginal.productAll messages >>= fun m => .ok (t.folding a m ns, m) := by
  have hcheck : t.checkOpen = .ok () := if_neg hopen
  have hmodify := fun m : Factor W L => modifyAt_eq_ok (lt_size_of_getElem? hc)
    fun c => { c with marginal := m, folded := ns.foldl addOnce c.folded }
  rw [fold, hcheck, cliqueAt_eq_ok hc]
  simp only [bind, Except.bind, hmodify]
  rfl

/-- Folding messages that have all arrived multiplies them into the marginal. -/
theorem fold_of_ready (hopen : t.phase ≠ .extracted) (hc : t.cliques[a]? = some c)
    (h : t.Ready a ns) : t.fold a ns
      = c.marginal.productAll (t.arrived a ns) >>= fun m => .ok (t.folding a m ns, m) := by
  rw [fold_eq hopen hc, mapM_received_eq_ok h]
  cases ns with
  | nil =>
    change Except.ok (t, c.marginal) = Except.ok (t.folding a c.marginal [], c.marginal)
    rw [folding_nil hc]
  | cons n ns =>
    have hne : (t.arrived a (n :: ns)).isEmpty = false := by
      obtain ⟨k, rfl, -, hsent⟩ := h n List.mem_cons_self
      obtain ⟨m, hm⟩ := Option.isSome_iff_exists.1 hsent
      rw [List.isEmpty_eq_false_iff]
      refine List.ne_nil_of_mem (a := m) (List.mem_filterMap.2 ⟨k, ?_, by simpa using hm⟩)
      exact (arrange_perm _ _).mem_iff.2 List.mem_cons_self
    simp only [bind, Except.bind, hne, Bool.false_eq_true, if_false]

/-- Nothing is folded if some message has not arrived. -/
theorem fold_eq_error (hopen : t.phase ≠ .extracted) (hc : t.cliques[a]? = some c) (ns : List Int)
    (hns : ∀ n ∈ ns, ∃ k : ℕ, n = (k : Int) ∧ k < t.size)
    (hmissing : ∃ k : ℕ, (k : Int) ∈ ns ∧ ¬ t.Sent k a) :
    ∃ k : ℕ, (k : Int) ∈ ns ∧ ¬ t.Sent k a ∧ t.fold a ns = .error (.messageMissing k a) := by
  have hperm : (ascending ns).Perm ns := arrange_perm _ _
  have hlt : ∀ k : ℕ, (k : Int) ∈ ns → k < t.size := fun k hk => by
    obtain ⟨j, hj, hlt⟩ := hns k hk
    omega
  obtain ⟨k, hk, hunsent⟩ := hmissing
  have hsome : ∃ n ∈ ascending ns, ∃ e, t.received a n = .error e :=
    ⟨k, hperm.mem_iff.2 hk, _, received_eq_error (hlt k hk) hunsent⟩
  obtain ⟨n, hn, e, he, hrun⟩ := mapM_eq_error hsome
  have hn := hperm.mem_iff.1 hn
  obtain ⟨j, rfl, hj⟩ := hns n hn
  have hmissing : ¬ t.Sent j a := fun hsent => by
    obtain ⟨m, hm⟩ := Option.isSome_iff_exists.1 hsent
    rw [received_eq_ok hj hm] at he
    cases he
  rw [received_eq_error hj hmissing] at he
  cases he
  refine ⟨j, hn, hmissing, ?_⟩
  rw [fold_eq hopen hc, hrun]
  rfl

namespace Orderly

/-- Folding messages that have arrived and were not folded yet succeeds and leaves an orderly tree.
-/
theorem fold (h : Orderly axes t) (hd : (axes.map Axis.name).Nodup)
    (hc : t.cliques[a]? = some c) (hns : ns.Nodup) (hfold : t.Outstanding a c ns) :
    ∃ m, c.marginal.productAll (t.arrived a ns) = .ok m ∧
      t.fold a ns = .ok (t.folding a m ns, m) ∧ Orderly axes (t.folding a m ns) := by
  obtain ⟨m, hm, hscope⟩ := Factor.exists_productAll hd (h.within_marginal hc) (t.arrived a ns)
    (fun _ hg => (h.fits_of_mem_arrived hc hfold hg).1)
    (fun _ hg => (h.fits_of_mem_arrived hc hfold hg).2)
  refine ⟨m, hm, ?_, h.folding hc hns hfold hscope⟩
  rw [fold_of_ready h.isOpen hc (h.ready hfold), hm]
  rfl

section MessageFrom

variable (h : Orderly axes t) (hc : t.cliques[a]? = some c) {s : Separator}
  (hs : ∀ v, v ∈ s.shared ↔ v ∈ t.scopeOf a ∩ t.scopeOf b)

include h hc hs

omit [LogConversion W L] in
/-- What is left has the variables that both ends hold. -/
theorem vars_reduced (mode : Mode) :
    (c.marginal.reduced mode (c.marginal.names.filter fun v => !s.shared.contains v)).vars
      = t.scopeOf a ∩ t.scopeOf b := by
  ext v
  have hv : v ∈ c.marginal.scope.names ↔ v ∈ t.scopeOf a := h.mem_names_marginal hc
  rw [Factor.mem_vars, Factor.names, Factor.scope_reduced, Scope.mem_names_keep, hv]
  simp only [Bool.not_eq_true', List.contains_eq_mem, decide_eq_false_iff_not, List.mem_filter,
    h.mem_names_marginal hc, hs, Finset.mem_inter]
  tauto

omit hs in
/-- The parts of a message: the receiver's own message is divided out if it was sent. -/
theorem messageFrom_eq (hborder : t.Borders a b) (hfolded : (b : Int) ∈ c.folded ↔ t.Sent b a) :
    Passing.messageFrom mode t s a b c.marginal = (Passing.eliminate mode c.marginal
        (c.marginal.names.filter fun v => !s.shared.contains v) >>= fun kept =>
      match t.message b a with
      | some r => kept.product r.invert
      | none => .ok kept) := by
  have hmessage := message?_eq_ok (b := a) (h.meshed.symm hborder).lt_size
  rw [Passing.messageFrom, cliqueAt_eq_ok hc]
  cases hr : t.message b a with
  | some r =>
    have hcontains : c.folded.contains (b : Int) = true := by
      rw [List.contains_eq_mem, decide_eq_true_eq, hfolded, Sent, hr]
      rfl
    rw [hr] at hmessage
    simp only [bind, Except.bind, hcontains, if_true, hmessage]
  | none =>
    have hcontains : c.folded.contains (b : Int) = false := by
      rw [List.contains_eq_mem, decide_eq_false_iff_not, hfolded, Sent, hr]
      simp
    simp only [bind, Except.bind, hcontains, Bool.false_eq_true, if_false]

/-- A message can be made from what is left of a running marginal. -/
theorem exists_message (mode : Mode) (hd : (axes.map Axis.name).Nodup) {kept : Factor W L}
    (hkept : kept = c.marginal.reduced mode
      (c.marginal.names.filter fun v => !s.shared.contains v)) :
    ∃ m, (match t.message b a with
        | some r => kept.product r.invert
        | none => .ok kept) = Except.ok m ∧
      m.scope.Within axes ∧ m.vars = t.scopeOf a ∩ t.scopeOf b := by
  have hvars : kept.vars = t.scopeOf a ∩ t.scopeOf b := hkept ▸ h.vars_reduced hc hs mode
  have hwithin : kept.scope.Within axes := by
    rw [hkept, Factor.scope_reduced]
    exact (h.within_marginal hc).keep _
  cases hr : t.message b a with
  | none => exact ⟨_, rfl, hwithin, hvars⟩
  | some r =>
    have hinverse : r.invert.vars = t.scopeOf a ∩ t.scopeOf b := by
      rw [Factor.vars_eq_of_scope_eq r.scope_invert, (h.message_scope hr).2, Finset.inter_comm]
    obtain ⟨g, hg, hscope⟩ := Factor.exists_product hd hwithin
      (r.scope_invert ▸ (h.message_scope hr).1) fun v hv => by
        rw [← Factor.mem_vars] at hv ⊢
        rwa [hvars, ← hinverse]
    exact ⟨g, hg, hscope ▸ hwithin, (Factor.vars_eq_of_scope_eq hscope).trans hvars⟩

/-- A message is made, unless a variable has no states. -/
theorem messageFrom_cases (mode : Mode) (hd : (axes.map Axis.name).Nodup) (hborder : t.Borders a b)
    (hfolded : (b : Int) ∈ c.folded ↔ t.Sent b a) :
    (∃ m, Passing.messageFrom mode t s a b c.marginal = .ok m ∧ m.scope.Within axes ∧
      m.vars = t.scopeOf a ∩ t.scopeOf b) ∨
    (∃ e, Passing.messageFrom mode t s a b c.marginal = .error e ∧ e.LacksStates) ∧
      ∃ x ∈ axes, x.card = 0 := by
  rw [h.messageFrom_eq hc hborder hfolded]
  rcases Factor.eliminate_cases mode c.marginal
      (fun v hv => (List.mem_filter.1 hv).1 :
        ∀ v ∈ c.marginal.names.filter fun v => !s.shared.contains v, v ∈ c.marginal.names)
    with hkept | ⟨⟨e, he, hlacks⟩, x, hx, hcard⟩
  · rw [hkept]
    exact Or.inl (h.exists_message hc hs mode hd rfl)
  · rw [he]
    exact Or.inr ⟨⟨e, rfl, hlacks⟩, x, h.within_marginal hc x hx, hcard⟩

end MessageFrom

end Orderly

section Pass

open PassingStep

variable {p : Passing W L}

/-- Up to the storing of the message, a call only folds. -/
theorem pass_eq {s : Separator} {m g : Factor W L}
    (hs : p.tree.separator (a : Int) (b : Int) = .ok s)
    (hfold : (do p.tree.fold a (← Passing.pending p.tree a b) : Except Fault _) = .ok (t, m))
    (hg : Passing.messageFrom mode t s a b m = .ok g) :
    Passing.pass mode (a : Int) (b : Int) p
      = (PassingStep.change (·.addMessage a b g) >>= fun _ => pure g :
          PassingStep W L (Factor W L)) { announced p a b with tree := t } := by
  have hreport : report (.passing a b) p = .ok () (announced p a b) := rfl
  rw [Passing.pass, bind_of_ok hreport, bind_of_ok (inspect_of_ok hs),
    bind_of_ok (changing_of_ok hfold), bind_of_ok (inspect_of_ok hg)]

/-- Up to the making of the message, a call that fails only folds. -/
theorem pass_eq_error {s : Separator} {m : Factor W L} {e : Fault}
    (hs : p.tree.separator (a : Int) (b : Int) = .ok s)
    (hfold : (do p.tree.fold a (← Passing.pending p.tree a b) : Except Fault _) = .ok (t, m))
    (he : Passing.messageFrom mode t s a b m = .error e) :
    Passing.pass mode (a : Int) (b : Int) p
      = .error e { announced p a b with tree := t } := by
  have hreport : report (.passing a b) p = .ok () (announced p a b) := rfl
  rw [Passing.pass, bind_of_ok hreport, bind_of_ok (inspect_of_ok hs),
    bind_of_ok (changing_of_ok hfold)]
  exact bind_of_error (inspect_of_error he)

/-- A call for a due message takes everything in that has arrived, and leaves an orderly tree. The
receiver's own message is folded in if it was sent. -/
theorem Orderly.exists_folding (h : Orderly axes t) (hd : (axes.map Axis.name).Nodup)
    (hborder : t.Borders a b) (hall : ∀ k, t.Borders a k → k ≠ b → t.Sent k a) :
    ∃ c s ns m, t.cliques[a]? = some c ∧ t.separator (a : Int) (b : Int) = .ok s ∧
      (∀ v, v ∈ s.shared ↔ v ∈ t.scopeOf a ∩ t.scopeOf b) ∧ ns.Nodup ∧ t.Outstanding a c ns ∧
      (∀ n, n ∈ c.folded ++ ns ↔ ∃ k : ℕ, n = k ∧ t.Borders a k ∧ (k = b → t.Sent b a)) ∧
      ((b : Int) ∈ c.folded ++ ns ↔ (t.folding a m ns).Sent b a) ∧
      c.marginal.productAll (t.arrived a ns) = .ok m ∧
      (do t.fold a (← Passing.pending t a b) : Except Fault _) = .ok (t.folding a m ns, m) ∧
      Orderly axes (t.folding a m ns) := by
  obtain ⟨c, hc⟩ := exists_clique hborder.lt_size
  obtain ⟨s, hs, -, -, hshared⟩ := h.meshed.separator_eq_ok hborder
  obtain ⟨ns, hns, hnodup, hout, hmem⟩ := h.pending_of_arrived hc hborder hall
  obtain ⟨m, hproduct, hm, horderly⟩ := h.fold hd hc hnodup hout
  refine ⟨c, s, ns, m, hc, hs, hshared, hnodup, hout, hmem, ?_, hproduct, ?_, horderly⟩
  · rw [sent_folding, hmem]
    constructor
    · rintro ⟨k, hk, -, hkb⟩
      exact hkb (by exact_mod_cast hk.symm)
    · exact fun hsent => ⟨b, rfl, hborder, fun _ => hsent⟩
  · rw [hns]
    exact hm

/-- A due message is sent, unless a variable has no states. -/
theorem Orderly.pass (h : Orderly axes p.tree) (hd : (axes.map Axis.name).Nodup) (mode : Mode)
    (hdue : p.tree.Due a b) :
    Ends (fun e => e.LacksStates ∧ ∃ x ∈ axes, x.card = 0)
      (fun _ q => q.tree.frame = p.tree.frame ∧ q.events = p.events ++ [.passing a b] ∧
        (∀ u w, q.tree.Sent u w ↔ p.tree.Sent u w ∨ u = a ∧ w = b) ∧ Orderly axes q.tree)
      (Passing.pass mode (a : Int) (b : Int) p) := by
  obtain ⟨hborder, hnew, hall⟩ := hdue
  obtain ⟨c, s, ns, m, hc, hs, hshared, hnodup, hout, -, hback, -, hfold, horderly⟩ :=
    h.exists_folding hd hborder hall
  have hscope := scopeOf_eq_of_frame_eq (frame_folding p.tree a m ns)
  have hborders := borders_eq_of_frame_eq (frame_folding p.tree a m ns)
  have hsender := cliques_folding hc hnodup hout m
  rcases horderly.messageFrom_cases hsender (by rw [hscope]; exact hshared) mode hd
      (hborders ▸ hborder) hback with ⟨g, hg, hwithin, hvars⟩ | ⟨⟨e, he, hlacks⟩, hempty⟩
  · rw [← sent_folding p.tree a m ns] at hnew
    have hadd := addMessage_eq_ok horderly.isOpen (lt_size_of_getElem? hsender) hnew g
    rw [pass_eq hs hfold hg, bind_of_ok (change_of_ok hadd)]
    refine ⟨(frame_sending ..).trans (frame_folding ..), rfl, fun u w => ?_,
      horderly.sending (lt_size_of_getElem? hsender) hwithin hvars⟩
    rw [sent_sending (lt_size_of_getElem? hsender), sent_folding]
  · rw [pass_eq_error hs hfold he]
    exact ⟨hlacks, hempty⟩

end Pass

end CliqueTree

end ExactInference
