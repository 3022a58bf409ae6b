import ExactInference.Proofs.OrderlyTrees

/-!
# Coherent trees

A coherent tree is an orderly one in which no clique borders on itself, so that its edges make a
graph. If all variables have states, a message for which everything has arrived never fails,
whatever the weights are. The second message on an edge is the late one: it is made after the
receiver's own message has arrived.
-/

namespace ExactInference

variable {W L : Type}

/-- Which messages were sent along the edges of a graph, and which of them are late: those that were
sent after the receiver's own message had been folded into the sender. -/
structure MessageOrder (G : SimpleGraph ℕ) (sent late : ℕ → ℕ → Prop) : Prop where
  /-- Messages are sent along edges. -/
  sent_adj : ∀ {a b : ℕ}, sent a b → G.Adj a b
  /-- A sender has received from all its other neighbors. -/
  sent_before : ∀ {a b k : ℕ}, sent a b → G.Adj a k → k ≠ b → sent k a
  /-- Both messages of an edge are sent if one of them is late, and the other one is not. -/
  late_sent : ∀ {a b : ℕ}, late a b → sent a b ∧ sent b a ∧ ¬ late b a
  /-- Of two messages on one edge one is late. -/
  answered : ∀ {a b : ℕ}, sent a b → sent b a → late a b ∨ late b a
  /-- A message that is not late was made from messages that are not late. -/
  first_before : ∀ {a b k : ℕ}, sent a b → ¬ late a b → G.Adj a k → k ≠ b → ¬ late k a

/-- A new message is late if the receiver's own message has arrived. -/
theorem MessageOrder.send {G : SimpleGraph ℕ} {sent late : ℕ → ℕ → Prop} {a b : ℕ}
    (h : MessageOrder G sent late) (hadj : G.Adj a b) (hall : ∀ k, G.Adj a k → k ≠ b → sent k a)
    (hnew : ¬ sent a b) :
    MessageOrder G (fun u w => sent u w ∨ u = a ∧ w = b)
      fun u w => late u w ∨ u = a ∧ w = b ∧ sent b a := by
  constructor
  case sent_adj =>
    rintro u w (huw | ⟨rfl, rfl⟩)
    · exact h.sent_adj huw
    · exact hadj
  case sent_before =>
    rintro u w k (huw | ⟨rfl, rfl⟩) huk hkw
    · exact Or.inl (h.sent_before huw huk hkw)
    · exact Or.inl (hall k huk hkw)
  case late_sent =>
    rintro u w (hlate | ⟨rfl, rfl, hba⟩)
    · obtain ⟨h₁, h₂, h₃⟩ := h.late_sent hlate
      refine ⟨Or.inl h₁, Or.inl h₂, ?_⟩
      rintro (hl | ⟨rfl, rfl, -⟩)
      · exact h₃ hl
      · exact hnew h₂
    · refine ⟨Or.inr ⟨rfl, rfl⟩, Or.inl hba, ?_⟩
      rintro (hl | ⟨he, -, -⟩)
      · exact hnew (h.late_sent hl).2.1
      · exact hadj.ne he.symm
  case answered =>
    rintro u w (huw | ⟨rfl, rfl⟩) (hwu | ⟨he, he'⟩)
    · exact (h.answered huw hwu).imp Or.inl Or.inl
    · subst he he'
      exact Or.inr (Or.inr ⟨rfl, rfl, huw⟩)
    · exact Or.inl (Or.inr ⟨rfl, rfl, hwu⟩)
    · exact absurd he.symm hadj.ne
  case first_before =>
    rintro u w k huw hlate huk hkw hl
    rw [not_or] at hlate
    rcases huw with huw | ⟨rfl, rfl⟩
    · rcases hl with hl | ⟨rfl, rfl, -⟩
      · exact h.first_before huw hlate.1 huk hkw hl
      · exact hnew (h.sent_before huw huk hkw)
    · rcases hl with hl | ⟨rfl, -, -⟩
      · -- The late message answers one that needed the message from `w`.
        have hwu := h.sent_before (h.late_sent hl).2.1 hadj fun he => hkw he.symm
        exact hlate.2 ⟨rfl, rfl, hwu⟩
      · exact huk.ne rfl

namespace CliqueTree

variable {t u : CliqueTree W L} {a b i : ℕ} {c : Clique W L} {axes : List Axis} {mode : Mode}
  {ns : List Int}

/-- What holds of a tree at every moment of message passing, whatever its edges are. -/
structure Coherent (axes : List Axis) (t : CliqueTree W L) : Prop where
  /-- The tree is wired. -/
  wired : t.Wired axes
  /-- The marginals have not been taken out. -/
  isOpen : t.phase ≠ .extracted
  /-- A message has the axes of the variables that both ends share. -/
  message_scope : ∀ {a b : ℕ} {m : Factor W L}, t.message a b = some m →
    m.scope.Within axes ∧ m.vars = t.scopeOf a ∩ t.scopeOf b
  /-- A message is folded in once. -/
  folded_nodup : ∀ {i : ℕ} {c : Clique W L}, t.cliques[i]? = some c → c.folded.Nodup
  /-- Only messages from neighbors are folded in, after they were sent. -/
  folded_sent : ∀ {i : ℕ} {c : Clique W L} {n : Int}, t.cliques[i]? = some c → n ∈ c.folded →
    ∃ k : ℕ, n = k ∧ t.graph.Adj i k ∧ t.Sent k i
  /-- A running marginal has the axes of the clique's factor. -/
  marginal_scope : ∀ {i : ℕ} {c : Clique W L}, t.cliques[i]? = some c →
    c.marginal.scope = c.factor.scope
  /-- Receivers are numbered as cliques are. -/
  receivers : ∀ {i : ℕ} {c : Clique W L} {n : Int}, t.cliques[i]? = some c → n ∈ c.messages.keys →
    ∃ k : ℕ, n = k

/-- Messages from neighbors that have arrived at a clique and that it has not folded in. -/
def Foldable (t : CliqueTree W L) (a : ℕ) (c : Clique W L) (ns : List Int) : Prop :=
  ∀ n ∈ ns, n ∉ c.folded ∧ ∃ k : ℕ, n = k ∧ t.graph.Adj a k ∧ t.Sent k a

namespace Coherent

/-- The neighbors in a coherent tree are those in its graph. -/
theorem orderly (h : Coherent axes t) : Orderly axes t where
  meshed := h.wired.meshed
  isOpen := h.isOpen
  message_scope := h.message_scope
  folded_nodup := h.folded_nodup
  folded_sent hc hn := by
    obtain ⟨k, hk, hadj, hsent⟩ := h.folded_sent hc hn
    exact ⟨k, hk, h.wired.borders_iff.2 hadj, hsent⟩
  marginal_scope := h.marginal_scope
  receivers := h.receivers

/-- An orderly tree in which no clique borders on itself is coherent. -/
theorem of_orderly (h : Orderly axes t) (hwired : t.Wired axes) : Coherent axes t where
  wired := hwired
  isOpen := h.isOpen
  message_scope := h.message_scope
  folded_nodup := h.folded_nodup
  folded_sent hc hn := by
    obtain ⟨k, hk, hborder, hsent⟩ := h.folded_sent hc hn
    exact ⟨k, hk, hwired.borders_iff.1 hborder, hsent⟩
  marginal_scope := h.marginal_scope
  receivers := h.receivers

theorem outstanding_iff (h : Coherent axes t) :
    t.Outstanding a c ns ↔ t.Foldable a c ns := by
  simp only [Outstanding, Foldable, h.wired.borders_iff]

/-- The axes of a running marginal. -/
theorem within_marginal (h : Coherent axes t) (hc : t.cliques[a]? = some c) :
    c.marginal.scope.Within axes := h.orderly.within_marginal hc

/-- The messages that can be folded in have arrived. -/
theorem ready (h : Coherent axes t) (hns : t.Foldable a c ns) : t.Ready a ns :=
  h.orderly.ready (h.outstanding_iff.2 hns)

/-- What has arrived fits into the running marginal. -/
theorem fits_of_mem_arrived (h : Coherent axes t) (hc : t.cliques[a]? = some c)
    (hns : t.Foldable a c ns) {m : Factor W L} (hm : m ∈ t.arrived a ns) :
    m.scope.Within axes ∧ ∀ v ∈ m.names, v ∈ c.marginal.names :=
  h.orderly.fits_of_mem_arrived hc (h.outstanding_iff.2 hns) hm

theorem cliques_folding (hc : t.cliques[a]? = some c) (hns : ns.Nodup) (hfold : t.Foldable a c ns)
    (m : Factor W L) :
    (t.folding a m ns).cliques[a]? = some { c with marginal := m, folded := c.folded ++ ns } := by
  rw [cliques_folding_self hc m ns, foldl_addOnce hns fun n hn => (hfold n hn).1]

/-- Storing a message over the shared variables leaves a coherent tree. -/
theorem sending (h : Coherent axes t) {m : Factor W L} (hadj : t.graph.Adj a b)
    (hwithin : m.scope.Within axes) (hvars : m.vars = t.scopeOf a ∩ t.scopeOf b) :
    Coherent axes (t.sending a b m) :=
  of_orderly (h.orderly.sending (h.wired.lt_size hadj) hwithin hvars)
    (h.wired.of_frame_eq (frame_sending t a b m).symm)

/-- The neighbors that a clique has not folded in. -/
theorem mem_unfolded (h : Coherent axes t) (hc : t.cliques[i]? = some c) {n : Int} :
    n ∈ c.unfolded ↔ n ∉ c.folded ∧ ∃ k : ℕ, n = k ∧ t.graph.Adj i k := by
  simp only [h.orderly.mem_unfolded hc, h.wired.borders_iff]

theorem unfolded_nodup (h : Coherent axes t) (hc : t.cliques[i]? = some c) :
    c.unfolded.Nodup := h.orderly.unfolded_nodup hc

section MessageFrom

variable (h : Coherent axes t) (hc : t.cliques[a]? = some c) {s : Separator}
  (hs : ∀ v, v ∈ s.shared ↔ v ∈ t.scopeOf a ∩ t.scopeOf b)

include h hc hs

/-- The variables that a message drops are those that the receiver does not hold. -/
theorem toFinset_dropped :
    (c.marginal.names.filter fun v => !s.shared.contains v).toFinset
      = t.scopeOf a \ t.scopeOf b := h.orderly.toFinset_dropped hc hs

end MessageFrom

end Coherent

section Pass

open PassingStep

/-- The outstanding messages of a clique can be folded in once all of them have arrived. -/
theorem Coherent.foldable_unfolded (h : Coherent axes t) (hc : t.cliques[i]? = some c)
    (hall : ∀ k, t.graph.Adj i k → t.Sent k i) : t.Foldable i c c.unfolded := fun n hn => by
  obtain ⟨hout, k, hk, hik⟩ := (h.mem_unfolded hc).1 hn
  exact ⟨hout, k, hk, hik, hall k hik⟩

/-- Then every neighbor is folded in. -/
theorem Coherent.mem_folded_append_unfolded (h : Coherent axes t) (hc : t.cliques[i]? = some c)
    (n : Int) : n ∈ c.folded ++ c.unfolded ↔ ∃ k : ℕ, n = k ∧ t.graph.Adj i k := by
  rw [List.mem_append, h.mem_unfolded hc]
  constructor
  · rintro (hn | ⟨-, hn⟩)
    · obtain ⟨k, hk, hik, -⟩ := h.folded_sent hc hn
      exact ⟨k, hk, hik⟩
    · exact hn
  · intro hn
    by_cases hin : n ∈ c.folded
    · exact Or.inl hin
    · exact Or.inr ⟨hin, hn⟩

end Pass

/-- A coherent tree with what is known of the order of its messages. -/
structure Tracked (axes : List Axis) (t : CliqueTree W L) (late : ℕ → ℕ → Prop) : Prop
    extends Coherent axes t, MessageOrder t.graph t.Sent late

namespace Tracked

variable {late late' : ℕ → ℕ → Prop} {p : Passing W L}

/-- Beginning to pass messages changes the stage and nothing else. -/
theorem begin (h : Tracked axes t late) : Tracked axes { t with phase := .inProgress } late where
  toCoherent := .of_orderly h.orderly.begin (h.wired.of_frame_eq rfl)
  toMessageOrder := h.toMessageOrder

theorem folding (h : Tracked axes t late) {m : Factor W L} {ns : List Int}
    (hcoherent : Coherent axes (t.folding a m ns)) : Tracked axes (t.folding a m ns) late where
  toCoherent := hcoherent
  toMessageOrder := by
    rw [graph_folding, sent_folding]
    exact h.toMessageOrder

end Tracked

/-- A wired tree is coherent before any message. -/
theorem Fresh.tracked (h : t.Fresh) (hwired : t.Wired axes) : Tracked axes t fun _ _ => False where
  toCoherent := .of_orderly (h.orderly hwired.meshed) hwired
  toMessageOrder :=
    have hsent : ∀ {a b}, ¬ t.Sent a b := h.not_sent _ _
    ⟨fun hab => absurd hab hsent, fun hab => absurd hab hsent, fun hl => hl.elim,
      fun hab => absurd hab hsent, fun hab => absurd hab hsent⟩

variable [WeightScale W] [WeightScale L] [LogConversion W L]

namespace Coherent

/-- Folding messages that have arrived and were not folded yet succeeds and leaves a coherent tree.
-/
theorem fold (h : Coherent axes t) (hd : (axes.map Axis.name).Nodup)
    (hc : t.cliques[a]? = some c) (hns : ns.Nodup) (hfold : t.Foldable a c ns) :
    ∃ m, c.marginal.productAll (t.arrived a ns) = .ok m ∧
      t.fold a ns = .ok (t.folding a m ns, m) ∧ Coherent axes (t.folding a m ns) := by
  obtain ⟨m, hm, hrun, horderly⟩ := h.orderly.fold hd hc hns (h.outstanding_iff.2 hfold)
  exact ⟨m, hm, hrun, of_orderly horderly (h.wired.of_frame_eq (frame_folding t a m ns).symm)⟩

section MessageFrom

variable (h : Coherent axes t) (hc : t.cliques[a]? = some c) {s : Separator}
  (hs : ∀ v, v ∈ s.shared ↔ v ∈ t.scopeOf a ∩ t.scopeOf b)

include h hc hs

omit hs in
/-- The parts of a message: the receiver's own message is divided out if it was sent. -/
theorem messageFrom_eq (hpos : ∀ e ∈ axes, 0 < e.card) (hadj : t.graph.Adj a b)
    (hfolded : (b : Int) ∈ c.folded ↔ t.Sent b a) :
    Passing.messageFrom mode t s a b c.marginal =
      let kept := c.marginal.reduced mode
        (c.marginal.names.filter fun v => !s.shared.contains v)
      match t.message b a with
      | some r => kept.product r.invert
      | none => .ok kept := by
  have hkept := Factor.eliminate_eq_ok mode hpos (h.within_marginal hc)
    (fun v hv => (List.mem_filter.1 hv).1 :
      ∀ v ∈ c.marginal.names.filter fun v => !s.shared.contains v, v ∈ c.marginal.names)
  rw [h.orderly.messageFrom_eq hc (h.wired.borders_iff.2 hadj) hfolded, hkept]
  rfl

/-- A message can be made from a running marginal. -/
theorem messageFrom_eq_ok (mode : Mode) (hd : (axes.map Axis.name).Nodup)
    (hpos : ∀ e ∈ axes, 0 < e.card) (hadj : t.graph.Adj a b)
    (hfolded : (b : Int) ∈ c.folded ↔ t.Sent b a) :
    ∃ m, Passing.messageFrom mode t s a b c.marginal = .ok m ∧ m.scope.Within axes ∧
      m.vars = t.scopeOf a ∩ t.scopeOf b := by
  rw [h.messageFrom_eq hc hpos hadj hfolded]
  exact h.orderly.exists_message hc hs mode hd rfl

end MessageFrom

end Coherent

section Pass

open PassingStep

variable {p : Passing W L}

/-- A message between cliques that are not adjacent is refused. -/
theorem Coherent.pass_of_not_adj (h : Coherent axes p.tree) (hadj : ¬ p.tree.graph.Adj a b) :
    ∃ e, Passing.pass mode (a : Int) (b : Int) p = .error e (announced p a b) := by
  obtain ⟨e, he⟩ := h.wired.separator_eq_error hadj
  refine ⟨e, ?_⟩
  have hreport : report (.passing a b) p = .ok () (announced p a b) := rfl
  rw [Passing.pass, bind_of_ok hreport]
  exact bind_of_error (inspect_of_error he)

/-- A message that needs another one which was not sent is refused. -/
theorem Coherent.pass_of_missing (h : Coherent axes p.tree) (hadj : p.tree.graph.Adj a b)
    (hmissing : ∃ k, p.tree.graph.Adj a k ∧ k ≠ b ∧ ¬ p.tree.Sent k a) :
    ∃ k : ℕ, Passing.pass mode (a : Int) (b : Int) p
      = .error (.messageMissing k a) (announced p a b) := by
  obtain ⟨c, hc⟩ := exists_clique (h.wired.lt_size hadj)
  obtain ⟨s, hs, -⟩ := h.wired.separator_eq_ok hadj
  obtain ⟨ns, hns, -, hmem⟩ := h.orderly.pending_eq_ok hc (h.wired.borders_iff.2 hadj)
  simp only [h.wired.borders_iff] at hmem
  obtain ⟨k, hak, hkb, hunsent⟩ := hmissing
  obtain ⟨j, -, -, hj⟩ := fold_eq_error h.isOpen hc ns
    (fun n hn => by
      obtain ⟨-, k, hk, hadj, -⟩ := (hmem n).1 hn
      exact ⟨k, hk, h.wired.lt_size hadj.symm⟩)
    ⟨k, (hmem k).2 ⟨fun hn => by
      obtain ⟨i, hi, -, hsent⟩ := h.folded_sent hc hn
      exact hunsent (by rwa [show k = i by exact_mod_cast hi]), k, rfl, hak,
      fun he => absurd he hkb⟩, hunsent⟩
  refine ⟨j, ?_⟩
  have hreport : report (.passing a b) p = .ok () (announced p a b) := rfl
  have hfold : (do p.tree.fold a (← Passing.pending p.tree a b) : Except Fault _)
      = .error (.messageMissing j a) := by
    rw [hns]
    exact hj
  rw [Passing.pass, bind_of_ok hreport, bind_of_ok (inspect_of_ok hs)]
  exact bind_of_error (changing_of_error hfold)

/-- A call that has everything it needs. The sender `c` folds in the messages from `ns`, which makes
its marginal `m`, and makes the message `g` from it. -/
structure Prepared (mode : Mode) (axes : List Axis) (p : Passing W L) (a b : ℕ) (c : Clique W L)
    (s : Separator) (ns : List Int) (m g : Factor W L) : Prop where
  /-- The sender. -/
  clique : p.tree.cliques[a]? = some c
  /-- The separator holds the variables of both ends. -/
  shared : ∀ v, v ∈ s.shared ↔ v ∈ p.tree.scopeOf a ∩ p.tree.scopeOf b
  /-- No message is folded in twice. -/
  nodup : ns.Nodup
  /-- What is folded in has arrived. -/
  foldable : p.tree.Foldable a c ns
  /-- Then everything is folded in, the receiver's own message only if it was sent. -/
  mem_folded : ∀ n, n ∈ c.folded ++ ns ↔
    ∃ k : ℕ, n = k ∧ p.tree.graph.Adj a k ∧ (k = b → p.tree.Sent b a)
  /-- The marginal that the message is made from. -/
  product : c.marginal.productAll (p.tree.arrived a ns) = .ok m
  /-- The message. -/
  message : Passing.messageFrom mode (p.tree.folding a m ns) s a b m = .ok g
  /-- The axes of the message. -/
  within : g.scope.Within axes
  /-- The variables of the message. -/
  vars_eq : g.vars = p.tree.scopeOf a ∩ p.tree.scopeOf b
  /-- Folding leaves a coherent tree. -/
  coherent : Coherent axes (p.tree.folding a m ns)
  /-- What is left to do is to store the message. -/
  run : Passing.pass mode (a : Int) (b : Int) p
    = (PassingStep.change (·.addMessage a b g) >>= fun _ => pure g : PassingStep W L (Factor W L))
      { announced p a b with tree := p.tree.folding a m ns }

/-- A call is prepared if all that it needs has arrived. -/
theorem Coherent.exists_prepared (h : Coherent axes p.tree) (hd : (axes.map Axis.name).Nodup)
    (hpos : ∀ e ∈ axes, 0 < e.card) (mode : Mode) (hadj : p.tree.graph.Adj a b)
    (hall : ∀ k, p.tree.graph.Adj a k → k ≠ b → p.tree.Sent k a) :
    ∃ c s ns m g, Prepared mode axes p a b c s ns m g := by
  obtain ⟨c, s, ns, m, hc, hs, hshared, hnodup, hout, hmem, hback, hproduct, hfold, horderly⟩ :=
    h.orderly.exists_folding hd (h.wired.borders_iff.2 hadj) fun k hak =>
      hall k (h.wired.borders_iff.1 hak)
  simp only [h.wired.borders_iff] at hmem
  have hfoldable := h.outstanding_iff.1 hout
  have hframe := frame_folding p.tree a m ns
  have hcoherent := of_orderly horderly (h.wired.of_frame_eq hframe.symm)
  have hscope := scopeOf_eq_of_frame_eq hframe
  obtain ⟨g, hg, hwithin, hvars⟩ := hcoherent.messageFrom_eq_ok
    (Coherent.cliques_folding hc hnodup hfoldable m) (by rw [hscope]; exact hshared) mode hd hpos
    (graph_folding p.tree a m ns ▸ hadj) hback
  refine ⟨c, s, ns, m, g, hc, hshared, hnodup, hfoldable, hmem, hproduct, hg, hwithin, ?_,
    hcoherent, pass_eq hs hfold hg⟩
  rw [hvars, hscope]

namespace Prepared

variable {s : Separator} {m g : Factor W L}

/-- The sender after folding. -/
theorem sender (h : Prepared mode axes p a b c s ns m g) :
    (p.tree.folding a m ns).cliques[a]?
      = some { c with marginal := m, folded := c.folded ++ ns } :=
  Coherent.cliques_folding h.clique h.nodup h.foldable m

/-- The receiver's own message is folded in if it was sent. -/
theorem mem_foldedAt (h : Prepared mode axes p a b c s ns m g) (hadj : p.tree.graph.Adj a b) :
    (b : Int) ∈ (p.tree.folding a m ns).foldedAt a ↔ p.tree.Sent b a := by
  rw [foldedAt_eq h.sender, h.mem_folded]
  constructor
  · rintro ⟨k, hk, -, hkb⟩
    exact hkb (by exact_mod_cast hk.symm)
  · exact fun hsent => ⟨b, rfl, hadj, fun _ => hsent⟩

/-- A message that was sent before is refused. -/
theorem pass_of_sent (h : Prepared mode axes p a b c s ns m g) (hdone : p.tree.Sent a b) :
    Passing.pass mode (a : Int) (b : Int) p
      = .error (.messageExists a b) { announced p a b with tree := p.tree.folding a m ns } := by
  rw [← sent_folding p.tree a m ns] at hdone
  rw [h.run]
  exact bind_of_error (change_of_error (addMessage_eq_error h.coherent.isOpen hdone g))

/-- A new message is sent. -/
theorem pass_of_new (h : Prepared mode axes p a b c s ns m g) (hnew : ¬ p.tree.Sent a b) :
    Passing.pass mode (a : Int) (b : Int) p = .ok g
      { announced p a b with tree := (p.tree.folding a m ns).sending a b g } := by
  rw [← sent_folding p.tree a m ns] at hnew
  rw [h.run]
  exact bind_of_ok (change_of_ok (addMessage_eq_ok h.coherent.isOpen
    (lt_size_of_getElem? h.sender) hnew g))

/-- Nothing but the marginal of the sender and the message changes. -/
theorem frame_eq (_ : Prepared mode axes p a b c s ns m g) :
    ((p.tree.folding a m ns).sending a b g).frame = p.tree.frame :=
  (frame_sending ..).trans (frame_folding ..)

/-- The message was not there before. -/
theorem sent_iff (h : Prepared mode axes p a b c s ns m g) {u w : ℕ} :
    ((p.tree.folding a m ns).sending a b g).Sent u w ↔ p.tree.Sent u w ∨ u = a ∧ w = b := by
  rw [sent_sending (lt_size_of_getElem? h.sender), sent_folding]

/-- Sending leaves a coherent tree. -/
theorem coherent_sending (h : Prepared mode axes p a b c s ns m g)
    (hadj : p.tree.graph.Adj a b) :
    Coherent axes ((p.tree.folding a m ns).sending a b g) := by
  refine h.coherent.sending (graph_folding p.tree a m ns ▸ hadj) h.within ?_
  rw [scopeOf_eq_of_frame_eq (frame_folding p.tree a m ns)]
  exact h.vars_eq

end Prepared

/-- A final marginal is refused while a message to the clique is missing. -/
theorem Coherent.computeMarginal_of_missing (h : Coherent axes p.tree) (hi : i < p.tree.size)
    (hmissing : ∃ k, p.tree.graph.Adj i k ∧ ¬ p.tree.Sent k i) :
    ∃ k : ℕ, Passing.computeMarginal (i : Int) p = .error (.messageMissing k i) p := by
  obtain ⟨c, hc⟩ := exists_clique hi
  obtain ⟨k, hik, hunsent⟩ := hmissing
  obtain ⟨j, -, -, hj⟩ := fold_eq_error h.isOpen hc c.unfolded
    (fun n hn => by
      obtain ⟨-, k, hk, hadj⟩ := (h.mem_unfolded hc).1 hn
      exact ⟨k, hk, h.wired.lt_size hadj.symm⟩)
    ⟨k, (h.mem_unfolded hc).2 ⟨fun hn => by
      obtain ⟨l, hl, -, hsent⟩ := h.folded_sent hc hn
      exact hunsent (by rwa [show k = l by exact_mod_cast hl]), k, rfl, hik⟩, hunsent⟩
  refine ⟨j, changing_of_error ?_⟩
  rw [computeMarginal, cliqueAt_eq_ok hc]
  exact hj

/-- There is no marginal for an index that no clique has. -/
theorem computeMarginal_of_size_le (hi : p.tree.size ≤ i) :
    ∃ e, Passing.computeMarginal (i : Int) p = .error e p := by
  obtain ⟨e, he⟩ := cliqueAt_eq_error hi
  refine ⟨e, changing_of_error ?_⟩
  rw [computeMarginal, he]
  rfl

/-- A clique `c` for which everything has arrived, with the final marginal `m` that it gets when it
folds in what is outstanding. -/
structure Completed (axes : List Axis) (p : Passing W L) (i : ℕ) (c : Clique W L) (m : Factor W L) :
    Prop where
  /-- The clique. -/
  clique : p.tree.cliques[i]? = some c
  /-- No message is folded in twice. -/
  nodup : c.unfolded.Nodup
  /-- What is outstanding has arrived. -/
  foldable : p.tree.Foldable i c c.unfolded
  /-- The final marginal. -/
  product : c.marginal.productAll (p.tree.arrived i c.unfolded) = .ok m
  /-- It is answered, and folded in. -/
  run : Passing.computeMarginal (i : Int) p
    = .ok m { p with tree := p.tree.folding i m c.unfolded }
  /-- Folding leaves a coherent tree. -/
  coherent : Coherent axes (p.tree.folding i m c.unfolded)

/-- A clique can be completed once everything has arrived. -/
theorem Coherent.exists_completed (h : Coherent axes p.tree) (hd : (axes.map Axis.name).Nodup)
    (hi : i < p.tree.size) (hall : ∀ k, p.tree.graph.Adj i k → p.tree.Sent k i) :
    ∃ c m, Completed axes p i c m := by
  obtain ⟨c, hc⟩ := exists_clique hi
  have hns := h.unfolded_nodup hc
  have hfold := h.foldable_unfolded hc hall
  obtain ⟨m, hproduct, hm, hcoherent⟩ := h.fold hd hc hns hfold
  refine ⟨c, m, hc, hns, hfold, hproduct, changing_of_ok ?_, hcoherent⟩
  rw [computeMarginal, cliqueAt_eq_ok hc]
  exact hm

namespace Completed

variable {m : Factor W L}

/-- The clique after folding. -/
theorem clique_folding (h : Completed axes p i c m) :
    (p.tree.folding i m c.unfolded).cliques[i]?
      = some { c with marginal := m, folded := c.folded ++ c.unfolded } :=
  Coherent.cliques_folding h.clique h.nodup h.foldable m

end Completed

end Pass

namespace Tracked

variable {late late' : ℕ → ℕ → Prop} {p : Passing W L}

/-- Sending a prepared message keeps the order. The message is late if the receiver's own message
has arrived. -/
theorem sending (h : Tracked axes p.tree late) (hadj : p.tree.graph.Adj a b)
    (hall : ∀ k, p.tree.graph.Adj a k → k ≠ b → p.tree.Sent k a) (hnew : ¬ p.tree.Sent a b)
    {s : Separator} {m g : Factor W L} (hprep : Prepared mode axes p a b c s ns m g) :
    Tracked axes ((p.tree.folding a m ns).sending a b g)
      fun u w => late u w ∨ u = a ∧ w = b ∧ p.tree.Sent b a where
  toCoherent := hprep.coherent_sending hadj
  toMessageOrder := by
    have hsent : ((p.tree.folding a m ns).sending a b g).Sent
        = fun u w => p.tree.Sent u w ∨ u = a ∧ w = b :=
      funext fun u => funext fun w => propext hprep.sent_iff
    rw [graph_eq_of_frame_eq hprep.frame_eq, hsent]
    exact h.toMessageOrder.send hadj hall hnew

end Tracked

end CliqueTree

end ExactInference
