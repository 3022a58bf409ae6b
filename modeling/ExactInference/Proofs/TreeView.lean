import ExactInference.Proofs.FactorValues
import ExactInference.Proofs.JoinForest
import ExactInference.Proofs.Sequencing

/-!
# Clique trees as graphs that carry messages

A clique tree is looked at through its graph, the scopes and weights of its cliques, the messages
sent so far and the neighbors whose messages were folded in. The frame of a tree, which is its
factors and separators, never changes while messages are passed. A tree is meshed if its separators
lead back and forth and hold what both ends share, wired if no clique borders on itself besides,
and well built if its cliques form a join forest.
-/

namespace ExactInference

variable {W L : Type}

/-- The part of a clique that never changes. -/
def Clique.frame (c : Clique W L) : Factor W L × OrderedMap Int Separator :=
  (c.factor, c.separators)

namespace CliqueTree

/-- The edges of a tree as a graph on the indices of its cliques. -/
def graph (t : CliqueTree W L) : SimpleGraph ℕ := SimpleGraph.fromRel fun i j => (i, j) ∈ t.edges

/-- The variables of a clique. -/
def scopeOf (t : CliqueTree W L) (i : ℕ) : Finset String :=
  (t.cliques[i]?.map fun c => c.factor.vars).getD ∅

/-- The message sent from one clique to another, if there is one. -/
def message (t : CliqueTree W L) (a b : ℕ) : Option (Factor W L) :=
  t.cliques[a]?.bind fun c => c.messages.get? b

/-- Whether a message was sent. -/
def Sent (t : CliqueTree W L) (a b : ℕ) : Prop := (t.message a b).isSome = true

/-- The neighbors whose messages a clique has folded in. -/
def foldedAt (t : CliqueTree W L) (a : ℕ) : List Int :=
  (t.cliques[a]?.map Clique.folded).getD []

/-- The part of a tree that never changes. -/
def frame (t : CliqueTree W L) : List (Factor W L × OrderedMap Int Separator) :=
  t.cliques.map Clique.frame

/-- The tree after a change to one clique. -/
def update (t : CliqueTree W L) (a : ℕ) (f : Clique W L → Clique W L) : CliqueTree W L :=
  { t with cliques := t.cliques.modify a f }

/-- The tree after a clique has taken in some messages. -/
def folding (t : CliqueTree W L) (a : ℕ) (marginal : Factor W L) (ns : List Int) :
    CliqueTree W L :=
  t.update a fun c => { c with marginal, folded := ns.foldl addOnce c.folded }

/-- The tree after a message was sent. -/
def sending (t : CliqueTree W L) (a b : ℕ) (m : Factor W L) : CliqueTree W L :=
  t.update a fun c => { c with messages := c.messages.insert b m }

variable {t u : CliqueTree W L} {a b i j : ℕ} {c d : Clique W L}

theorem lt_size_of_getElem? (h : t.cliques[i]? = some c) : i < t.size :=
  (List.getElem?_eq_some_iff.1 h).1

theorem exists_clique (h : i < t.size) : ∃ c, t.cliques[i]? = some c :=
  ⟨_, List.getElem?_eq_getElem h⟩

theorem cliqueAt_eq_ok (h : t.cliques[i]? = some c) : t.cliqueAt (i : Int) = .ok c :=
  elementAt_eq_ok h

theorem cliqueAt_eq_error (h : t.size ≤ i) : ∃ e, t.cliqueAt (i : Int) = .error e := by
  have hnone : placeOf? t.cliques.length (i : Int) = none := by
    unfold placeOf?
    rw [if_neg (by simp only [size] at h; omega), if_neg (by omega)]
  refine ⟨if fitsWord (i : Int) then .listIndex else .positionTooLarge, ?_⟩
  rw [cliqueAt, elementAt, resolveIndex, hnone]
  rfl

theorem message?_eq_ok (h : a < t.size) : t.message? (a : Int) (b : Int) = .ok (t.message a b) := by
  obtain ⟨c, hc⟩ := exists_clique h
  rw [message?, cliqueAt_eq_ok hc, message, hc]
  rfl

theorem modifyAt_eq_ok (h : a < t.size) (f : Clique W L → Clique W L) :
    t.modifyAt (a : Int) f = .ok (t.update a f) := by
  have hplace : resolveIndex t.cliques.length (a : Int) = .ok a := by
    have hplace := placeOf?_natCast h
    simp only [size] at hplace
    rw [resolveIndex, hplace]
  rw [modifyAt, hplace]
  rfl

theorem scopeOf_eq (h : t.cliques[i]? = some c) : t.scopeOf i = c.factor.vars := by
  rw [scopeOf, h]
  rfl

theorem foldedAt_eq (h : t.cliques[i]? = some c) : t.foldedAt i = c.folded := by
  rw [foldedAt, h]
  rfl

theorem message_eq (h : t.cliques[a]? = some c) (b : ℕ) :
    t.message a b = c.messages.get? (b : Int) := by
  rw [message, h]
  rfl

theorem size_eq_of_frame_eq (h : t.frame = u.frame) : t.size = u.size := by
  simpa [frame, size] using congrArg List.length h

/-- Trees of one frame have the same factors and separators in every place. -/
theorem exists_of_frame_eq (h : t.frame = u.frame) (hc : t.cliques[i]? = some c) :
    ∃ d, u.cliques[i]? = some d ∧ d.factor = c.factor ∧ d.separators = c.separators := by
  have hi := congrArg (fun l => l[i]?) h
  simp only [frame, List.getElem?_map, hc, Option.map_some] at hi
  obtain ⟨d, hd, he⟩ := Option.map_eq_some_iff.1 hi.symm
  exact ⟨d, hd, congrArg Prod.fst he, congrArg Prod.snd he⟩

theorem mem_edges : (i, j) ∈ t.edges ↔
    ∃ c, t.cliques[i]? = some c ∧ ∃ n ∈ c.separators.keys, (i : Int) < n ∧ n.toNat = j := by
  simp only [edges, List.mem_flatMap, List.mem_map, List.mem_filter, Clique.neighbors, ascending,
    mem_arrange, decide_eq_true_eq, Prod.mk.injEq]
  constructor
  · rintro ⟨⟨c, k⟩, hmem, n, ⟨hn, hlt⟩, rfl, hj⟩
    exact ⟨c, List.mem_zipIdx_iff_getElem?.1 hmem, n, hn, hlt, hj⟩
  · rintro ⟨c, hc, n, hn, hlt, hj⟩
    exact ⟨(c, i), List.mem_zipIdx_iff_getElem?.2 hc, n, ⟨hn, hlt⟩, rfl, hj⟩

theorem edges_eq_of_frame_eq (h : t.frame = u.frame) : t.edges = u.edges := by
  have hedges : ∀ t : CliqueTree W L, t.edges = t.frame.zipIdx.flatMap fun e =>
      ((ascending e.1.2.keys).filter ((e.2 : Int) < ·)).map fun n => (e.2, n.toNat) := by
    intro t
    rw [frame, List.zipIdx_map, List.flatMap_map]
    rfl
  rw [hedges, hedges, h]

theorem graph_eq_of_frame_eq (h : t.frame = u.frame) : t.graph = u.graph := by
  rw [graph, graph, edges_eq_of_frame_eq h]

theorem scopeOf_eq_of_frame_eq (h : t.frame = u.frame) : t.scopeOf = u.scopeOf := by
  have hscope : ∀ t : CliqueTree W L, t.scopeOf
      = fun i => (t.frame[i]?.map fun e => e.1.vars).getD ∅ := by
    intro t
    funext i
    simp only [frame, List.getElem?_map, Option.map_map, scopeOf]
    rfl
  rw [hscope, hscope, h]

theorem getElem?_update (t : CliqueTree W L) (a i : ℕ) (f : Clique W L → Clique W L) :
    (t.update a f).cliques[i]? = if a = i then t.cliques[i]?.map f else t.cliques[i]? := by
  simp only [update, List.getElem?_modify]
  split <;> simp

theorem size_update (t : CliqueTree W L) (a : ℕ) (f : Clique W L → Clique W L) :
    (t.update a f).size = t.size := List.length_modify ..

/-- A change that keeps factors and separators keeps the frame. -/
theorem frame_update {f : Clique W L → Clique W L} (hf : ∀ c, (f c).frame = c.frame) :
    (t.update a f).frame = t.frame := by
  refine List.ext_getElem? fun i => ?_
  simp only [frame, List.getElem?_map, getElem?_update]
  split
  · simp [Option.map_map, Function.comp_def, hf]
  · rfl

theorem frame_folding (t : CliqueTree W L) (a : ℕ) (m : Factor W L) (ns : List Int) :
    (t.folding a m ns).frame = t.frame := frame_update fun _ => rfl

theorem frame_sending (t : CliqueTree W L) (a b : ℕ) (m : Factor W L) :
    (t.sending a b m).frame = t.frame := frame_update fun _ => rfl

theorem graph_folding (t : CliqueTree W L) (a : ℕ) (m : Factor W L) (ns : List Int) :
    (t.folding a m ns).graph = t.graph := graph_eq_of_frame_eq (frame_folding t a m ns)

theorem message_folding (t : CliqueTree W L) (a : ℕ) (m : Factor W L) (ns : List Int) :
    (t.folding a m ns).message = t.message := by
  funext u w
  simp only [message, folding, getElem?_update]
  split
  · cases t.cliques[u]? <;> rfl
  · rfl

theorem sent_folding (t : CliqueTree W L) (a : ℕ) (m : Factor W L) (ns : List Int) :
    (t.folding a m ns).Sent = t.Sent := by
  funext u w
  rw [Sent, message_folding, Sent]

theorem cliques_folding_self (h : t.cliques[a]? = some c) (m : Factor W L) (ns : List Int) :
    (t.folding a m ns).cliques[a]?
      = some { c with marginal := m, folded := ns.foldl addOnce c.folded } := by
  rw [folding, getElem?_update, if_pos rfl, h]
  rfl

theorem cliques_folding_of_ne (t : CliqueTree W L) {a i : ℕ} (h : i ≠ a) (m : Factor W L)
    (ns : List Int) : (t.folding a m ns).cliques[i]? = t.cliques[i]? := by
  rw [folding, getElem?_update, if_neg fun he => h he.symm]

/-- Sending a message changes the messages of the sender and nothing else. -/
theorem exists_of_cliques_sending {m : Factor W L} (h : (t.sending a b m).cliques[i]? = some c) :
    ∃ d, t.cliques[i]? = some d ∧ c.factor = d.factor ∧ c.marginal = d.marginal ∧
      c.folded = d.folded ∧ c.separators = d.separators := by
  rw [sending, getElem?_update] at h
  split at h
  · obtain ⟨d, hd, rfl⟩ := Option.map_eq_some_iff.1 h
    exact ⟨d, hd, rfl, rfl, rfl, rfl⟩
  · exact ⟨c, h, rfl, rfl, rfl, rfl⟩

theorem foldedAt_sending (t : CliqueTree W L) (a b : ℕ) (m : Factor W L) :
    (t.sending a b m).foldedAt = t.foldedAt := by
  funext i
  simp only [foldedAt, sending, getElem?_update]
  split
  · cases t.cliques[i]? <;> rfl
  · rfl

theorem message_sending_self (h : a < t.size) (b : ℕ) (m : Factor W L) :
    (t.sending a b m).message a b = some m := by
  obtain ⟨c, hc⟩ := exists_clique h
  simp [message, sending, getElem?_update, hc]

theorem message_sending_of_ne (t : CliqueTree W L) {a b i j : ℕ} (h : ¬ (i = a ∧ j = b))
    (m : Factor W L) : (t.sending a b m).message i j = t.message i j := by
  simp only [message, sending, getElem?_update]
  split
  · next hai =>
    subst hai
    have hj : (j : Int) ≠ (b : Int) := fun he => h ⟨rfl, by exact_mod_cast he⟩
    cases t.cliques[a]? with
    | none => rfl
    | some c => exact OrderedMap.get?_insert_of_ne c.messages hj m
  · rfl

theorem sent_sending (h : a < t.size) (b : ℕ) (m : Factor W L) :
    (t.sending a b m).Sent = fun u w => t.Sent u w ∨ u = a ∧ w = b := by
  funext u w
  by_cases huw : u = a ∧ w = b
  · obtain ⟨rfl, rfl⟩ := huw
    simp [Sent, message_sending_self h]
  · simp only [Sent, message_sending_of_ne t huw, huw, or_false]

/-- A message is stored if none was stored for its direction before. -/
theorem addMessage_eq_ok (hopen : t.phase ≠ .extracted) (ha : a < t.size) (hnew : ¬ t.Sent a b)
    (m : Factor W L) : t.addMessage (a : Int) (b : Int) m = .ok (t.sending a b m) := by
  obtain ⟨c, hc⟩ := exists_clique ha
  have hcheck : t.checkOpen = .ok () := if_neg hopen
  have hfree : c.messages.contains (b : Int) = false := by
    rw [Sent, message_eq hc] at hnew
    simpa [OrderedMap.contains] using hnew
  rw [addMessage, hcheck, cliqueAt_eq_ok hc]
  simp only [bind, Except.bind, hfree, Bool.false_eq_true, if_false]
  exact modifyAt_eq_ok ha _

/-- A second message for a direction is refused. -/
theorem addMessage_eq_error (hopen : t.phase ≠ .extracted) (h : t.Sent a b) (m : Factor W L) :
    t.addMessage (a : Int) (b : Int) m = .error (.messageExists a b) := by
  have hcheck : t.checkOpen = .ok () := if_neg hopen
  cases hc : t.cliques[a]? with
  | none => simp [Sent, message, hc] at h
  | some c =>
    have hused : c.messages.contains (b : Int) = true := by
      rw [Sent, message_eq hc] at h
      exact h
    rw [addMessage, hcheck, cliqueAt_eq_ok hc]
    simp only [bind, Except.bind, hused, if_true]
    rfl

/-- Whether a clique has a separator to another one, or to itself. -/
def Borders (t : CliqueTree W L) (i j : ℕ) : Prop :=
  ∃ c, t.cliques[i]? = some c ∧ (j : Int) ∈ c.separators.keys

/-- A tree whose factors take their axes from one list, and whose separators lead to cliques, which
lead back, and hold the variables that both share. -/
structure Meshed (axes : List Axis) (t : CliqueTree W L) : Prop where
  /-- The axes of the factors. -/
  within : ∀ {i : ℕ} {c : Clique W L}, t.cliques[i]? = some c → c.factor.scope.Within axes
  /-- There is one separator to a neighbor. -/
  keys_nodup : ∀ {i : ℕ} {c : Clique W L}, t.cliques[i]? = some c → c.separators.keys.Nodup
  /-- What a separator holds. -/
  separators : ∀ {i : ℕ} {c : Clique W L} {n : Int} {s : Separator}, t.cliques[i]? = some c →
    c.separators.get? n = some s →
    ∃ (k : ℕ) (d : Clique W L), n = (k : Int) ∧ t.cliques[k]? = some d ∧
      (i : Int) ∈ d.separators.keys ∧ s.start = (i : Int) ∧ s.stop = n ∧
      ∀ v, v ∈ s.shared ↔ v ∈ c.factor.names ∧ v ∈ d.factor.names

theorem Borders.lt_size (h : t.Borders i j) : i < t.size := by
  obtain ⟨c, hc, -⟩ := h
  exact lt_size_of_getElem? hc

theorem Borders.mem_keys (h : t.Borders i j) (hc : t.cliques[i]? = some c) :
    (j : Int) ∈ c.separators.keys := by
  obtain ⟨d, hd, hj⟩ := h
  rw [hc] at hd
  cases hd
  exact hj

theorem borders_eq_of_frame_eq (h : t.frame = u.frame) : t.Borders = u.Borders := by
  have hborders : ∀ {t u : CliqueTree W L} {i j : ℕ}, t.frame = u.frame → t.Borders i j →
      u.Borders i j := by
    rintro t u i j h ⟨c, hc, hj⟩
    obtain ⟨d, hd, -, hseps⟩ := exists_of_frame_eq h hc
    exact ⟨d, hd, hseps ▸ hj⟩
  funext i j
  exact propext ⟨hborders h, hborders h.symm⟩

namespace Meshed

variable {axes : List Axis}

theorem symm (h : t.Meshed axes) (hij : t.Borders i j) : t.Borders j i := by
  obtain ⟨c, hc, hj⟩ := hij
  obtain ⟨s, hs⟩ := OrderedMap.exists_get?_of_mem_keys hj
  obtain ⟨k, d, hk, hd, hback, -⟩ := h.separators hc hs
  have hkj : k = j := by exact_mod_cast hk.symm
  exact ⟨d, hkj ▸ hd, hback⟩

/-- The neighbors are the cliques that a clique has a separator to. -/
theorem mem_neighbors (h : t.Meshed axes) (hc : t.cliques[i]? = some c) {n : Int} :
    n ∈ c.neighbors ↔ ∃ k : ℕ, n = k ∧ t.Borders i k := by
  rw [Clique.neighbors, ascending, mem_arrange]
  constructor
  · intro hn
    obtain ⟨s, hs⟩ := OrderedMap.exists_get?_of_mem_keys hn
    obtain ⟨k, -, hk, -⟩ := h.separators hc hs
    exact ⟨k, hk, c, hc, hk ▸ hn⟩
  · rintro ⟨k, rfl, hborder⟩
    exact hborder.mem_keys hc

theorem neighbors_nodup (h : t.Meshed axes) (hc : t.cliques[i]? = some c) :
    c.neighbors.Nodup :=
  (arrange_perm _ _).nodup_iff.2 (h.keys_nodup hc)

/-- A separator between neighbors holds what both of them hold. -/
theorem separator_eq_ok (h : t.Meshed axes) (hborder : t.Borders a b) :
    ∃ s, t.separator (a : Int) (b : Int) = .ok s ∧ s.start = (a : Int) ∧ s.stop = (b : Int) ∧
      ∀ v, v ∈ s.shared ↔ v ∈ t.scopeOf a ∩ t.scopeOf b := by
  obtain ⟨c, hc, hb⟩ := hborder
  obtain ⟨s, hs⟩ := OrderedMap.exists_get?_of_mem_keys hb
  obtain ⟨k, d, hk, hd, -, hstart, hstop, hshared⟩ := h.separators hc hs
  have hkb : k = b := by exact_mod_cast hk.symm
  subst hkb
  refine ⟨s, ?_, hstart, hstop, fun v => ?_⟩
  · rw [separator, cliqueAt_eq_ok hc]
    simp only [bind, Except.bind, hs]
  · rw [hshared, Finset.mem_inter, scopeOf_eq hc, scopeOf_eq hd, Factor.mem_vars, Factor.mem_vars]

/-- Being meshed only depends on the frame. -/
theorem of_frame_eq (h : t.Meshed axes) (hf : t.frame = u.frame) : u.Meshed axes where
  within hd := by
    obtain ⟨c, hc, hfactor, -⟩ := exists_of_frame_eq hf.symm hd
    rw [← hfactor]
    exact h.within hc
  keys_nodup hd := by
    obtain ⟨c, hc, -, hseps⟩ := exists_of_frame_eq hf.symm hd
    rw [← hseps]
    exact h.keys_nodup hc
  separators hd hs := by
    obtain ⟨c, hc, hfactor, hseps⟩ := exists_of_frame_eq hf.symm hd
    rw [← hseps] at hs
    obtain ⟨k, e, hn, he, hback, hstart, hstop, hshared⟩ := h.separators hc hs
    obtain ⟨e', he', hfactor', hseps'⟩ := exists_of_frame_eq hf he
    refine ⟨k, e', hn, he', hseps' ▸ hback, hstart, hstop, fun v => ?_⟩
    rw [hshared, Factor.names, Factor.names, Factor.names, Factor.names, hfactor, hfactor']

end Meshed

/-- A tree whose factors take their axes from one list, and whose separators lead to other cliques,
which lead back, and hold the variables that both share. -/
structure Wired (axes : List Axis) (t : CliqueTree W L) : Prop where
  /-- The axes of the factors. -/
  within : ∀ {i : ℕ} {c : Clique W L}, t.cliques[i]? = some c → c.factor.scope.Within axes
  /-- There is one separator to a neighbor. -/
  keys_nodup : ∀ {i : ℕ} {c : Clique W L}, t.cliques[i]? = some c → c.separators.keys.Nodup
  /-- What a separator holds. -/
  separators : ∀ {i : ℕ} {c : Clique W L} {n : Int} {s : Separator}, t.cliques[i]? = some c →
    c.separators.get? n = some s →
    ∃ (k : ℕ) (d : Clique W L), n = (k : Int) ∧ k ≠ i ∧ t.cliques[k]? = some d ∧
      (i : Int) ∈ d.separators.keys ∧ s.start = (i : Int) ∧ s.stop = n ∧
      ∀ v, v ∈ s.shared ↔ v ∈ c.factor.names ∧ v ∈ d.factor.names

/-- A wired tree over a join forest. -/
structure WellBuilt (axes : List Axis) (t : CliqueTree W L) : Prop extends Wired axes t where
  /-- The cliques form a join forest. -/
  forest : IsJoinForest t.size t.graph t.scopeOf

namespace Wired

variable {axes : List Axis}

theorem meshed (h : t.Wired axes) : t.Meshed axes where
  within := h.within
  keys_nodup := h.keys_nodup
  separators hc hs := by
    obtain ⟨k, d, hk, -, hrest⟩ := h.separators hc hs
    exact ⟨k, d, hk, hrest⟩

/-- A meshed tree is wired if no clique borders on itself. -/
theorem of_meshed (h : t.Meshed axes) (hloop : ∀ i, ¬ t.Borders i i) : t.Wired axes where
  within := h.within
  keys_nodup := h.keys_nodup
  separators {i c n s} hc hs := by
    obtain ⟨k, d, hk, hrest⟩ := h.separators hc hs
    refine ⟨k, d, hk, fun he => hloop i ⟨c, hc, ?_⟩, hrest⟩
    rw [← he, ← hk]
    exact OrderedMap.mem_keys_of_get? hs

theorem not_borders_self (h : t.Wired axes) (i : ℕ) : ¬ t.Borders i i := by
  rintro ⟨c, hc, hi⟩
  obtain ⟨s, hs⟩ := OrderedMap.exists_get?_of_mem_keys hi
  obtain ⟨k, -, hk, hne, -⟩ := h.separators hc hs
  exact hne (by exact_mod_cast hk.symm)

/-- The neighbors in the graph are those that a clique has a separator to. -/
theorem adj_iff (h : t.Wired axes) :
    t.graph.Adj i j ↔ ∃ c, t.cliques[i]? = some c ∧ (j : Int) ∈ c.separators.keys := by
  rw [graph, SimpleGraph.fromRel_adj]
  constructor
  · rintro ⟨-, he | he⟩
    · obtain ⟨c, hc, n, hn, hlt, hj⟩ := mem_edges.1 he
      have hnj : n = (j : Int) := by omega
      exact ⟨c, hc, hnj ▸ hn⟩
    · obtain ⟨c, hc, n, hn, hlt, hi⟩ := mem_edges.1 he
      have hni : n = (i : Int) := by omega
      exact h.meshed.symm ⟨c, hc, hni ▸ hn⟩
  · intro hborder
    have hne : i ≠ j := fun he => h.not_borders_self i (he ▸ hborder)
    refine ⟨hne, ?_⟩
    rcases Nat.lt_or_gt_of_ne hne with hlt | hlt
    · obtain ⟨c, hc, hj⟩ := hborder
      exact Or.inl (mem_edges.2 ⟨c, hc, j, hj, by omega, by omega⟩)
    · obtain ⟨d, hd, hi⟩ := h.meshed.symm hborder
      exact Or.inr (mem_edges.2 ⟨d, hd, i, hi, by omega, by omega⟩)

theorem borders_iff (h : t.Wired axes) : t.Borders i j ↔ t.graph.Adj i j := h.adj_iff.symm

/-- Edges join cliques. -/
theorem lt_size (h : t.Wired axes) (hadj : t.graph.Adj i j) : i < t.size :=
  (h.borders_iff.2 hadj).lt_size

/-- A separator exists exactly between neighbors, and holds what both ends share. -/
theorem separator_eq_ok (h : t.Wired axes) (hadj : t.graph.Adj a b) :
    ∃ s, t.separator (a : Int) (b : Int) = .ok s ∧ s.start = (a : Int) ∧ s.stop = (b : Int) ∧
      ∀ v, v ∈ s.shared ↔ v ∈ t.scopeOf a ∩ t.scopeOf b :=
  h.meshed.separator_eq_ok (h.borders_iff.2 hadj)

theorem separator_eq_error (h : t.Wired axes) (hadj : ¬ t.graph.Adj a b) :
    ∃ e, t.separator (a : Int) (b : Int) = .error e := by
  by_cases ha : a < t.size
  · obtain ⟨c, hc⟩ := exists_clique ha
    refine ⟨.noSeparator b, ?_⟩
    have hnone : c.separators.get? (b : Int) = none := by
      refine Option.eq_none_iff_forall_not_mem.2 fun s hs => hadj ?_
      exact h.adj_iff.2 ⟨c, hc, OrderedMap.mem_keys_of_get? hs⟩
    rw [separator, cliqueAt_eq_ok hc]
    simp only [bind, Except.bind, hnone]
  · obtain ⟨e, he⟩ := cliqueAt_eq_error (not_lt.1 ha)
    refine ⟨e, ?_⟩
    rw [separator, he]
    rfl

/-- Being wired only depends on the frame. -/
theorem of_frame_eq (h : t.Wired axes) (hf : t.frame = u.frame) : u.Wired axes := by
  refine of_meshed (h.meshed.of_frame_eq hf) fun i => ?_
  rw [← borders_eq_of_frame_eq hf]
  exact h.not_borders_self i

end Wired

/-- Being well built only depends on the frame. -/
theorem WellBuilt.of_frame_eq {axes : List Axis} (h : t.WellBuilt axes) (hf : t.frame = u.frame) :
    u.WellBuilt axes where
  toWired := h.toWired.of_frame_eq hf
  forest := by
    rw [← size_eq_of_frame_eq hf, ← graph_eq_of_frame_eq hf, ← scopeOf_eq_of_frame_eq hf]
    exact h.forest

variable [Semifield W] [WeightScale W] [WeightScale L] [LogConversion W L]

/-- The weight that the factor of a clique gives to a joint state. -/
def weightOf (t : CliqueTree W L) (i : ℕ) (x : JointState) : W :=
  (t.cliques[i]?.map fun c => c.factor.weightAt x).getD 1

/-- The weight of a message at a joint state; one if it was not sent. -/
def messageWeight (t : CliqueTree W L) (a b : ℕ) (x : JointState) : W :=
  ((t.message a b).map fun m => m.weightAt x).getD 1

theorem weightOf_eq (h : t.cliques[i]? = some c) (x : JointState) :
    t.weightOf i x = c.factor.weightAt x := by
  rw [weightOf, h]
  rfl

theorem messageWeight_eq {m : Factor W L} (h : t.message a b = some m) (x : JointState) :
    t.messageWeight a b x = m.weightAt x := by
  rw [messageWeight, h]
  rfl

theorem messageWeight_folding (t : CliqueTree W L) (a : ℕ) (m : Factor W L) (ns : List Int) :
    (t.folding a m ns).messageWeight = t.messageWeight := by
  funext u w x
  rw [messageWeight, message_folding, messageWeight]

theorem messageWeight_sending_self (h : a < t.size) (b : ℕ) (m : Factor W L) :
    (t.sending a b m).messageWeight a b = m.weightAt :=
  funext fun x => messageWeight_eq (message_sending_self h b m) x

theorem messageWeight_sending_of_ne (t : CliqueTree W L) {a b i j : ℕ} (h : ¬ (i = a ∧ j = b))
    (m : Factor W L) : (t.sending a b m).messageWeight i j = t.messageWeight i j := by
  funext x
  rw [messageWeight, message_sending_of_ne t h, messageWeight]

/-- The weight of a clique looks at its variables only. -/
theorem reads_weightOf (t : CliqueTree W L) (i : ℕ) : Reads (t.weightOf i) (t.scopeOf i) := by
  intro x y hxy
  cases hc : t.cliques[i]? with
  | none => simp [weightOf, hc]
  | some c =>
    rw [weightOf_eq hc, weightOf_eq hc]
    exact c.factor.reads_weightAt x y fun n hn => hxy n (scopeOf_eq hc ▸ hn)

theorem weightOf_eq_of_frame_eq (h : t.frame = u.frame) : t.weightOf = u.weightOf := by
  have hweight : ∀ t : CliqueTree W L, t.weightOf
      = fun i x => (t.frame[i]?.map fun e => e.1.weightAt x).getD 1 := by
    intro t
    funext i x
    simp only [frame, List.getElem?_map, Option.map_map, weightOf]
    rfl
  rw [hweight, hweight, h]

omit [Semifield W] [WeightScale W] [WeightScale L] [LogConversion W L] in
theorem WellBuilt.scopeOf_subset {axes : List Axis} (h : t.WellBuilt axes) (i : ℕ) :
    ∀ n ∈ t.scopeOf i, n ∈ axes.map Axis.name := by
  intro n hn
  cases hc : t.cliques[i]? with
  | none => simp [scopeOf, hc] at hn
  | some c =>
    rw [scopeOf_eq hc, Factor.mem_vars] at hn
    exact (h.within hc).mem_names hn

end CliqueTree

end ExactInference
