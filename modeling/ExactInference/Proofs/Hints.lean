import ExactInference.Proofs.BestAssignments

/-!
# Hints

A hint only replaces the schedule of a tree: its cliques, edges and separators stay. So an engine
that answers a graph without a hint gives the same answer with one, if two sweeps along the hint
deliver all messages, and this depends on the paths of the tree alone. On a path of four cliques
whose second one is visited before the first and the third, the message from the third to the
fourth is never sent, and the engine fails with a missing message.
-/

namespace ExactInference

namespace CliqueTree

variable {W L : Type} {s t : CliqueTree W L}

theorem modifyAt_withOrder {i : Int} {f : Clique W L → Clique W L} (h : s.modifyAt i f = .ok t)
    (order : List Int) :
    CliqueTree.modifyAt { s with order } i f = .ok { t with order } := by
  obtain ⟨place, hplace, h⟩ := bind_eq_ok_iff.1 h
  cases h
  exact bind_eq_ok_iff.2 ⟨place, hplace, rfl⟩

/-- Joining cliques does not look at the schedule. -/
theorem join_withOrder {e : Int × Int} (h : s.join e = .ok t) (order : List Int) :
    CliqueTree.join { s with order } e = .ok { t with order } := by
  obtain ⟨a, ha, h⟩ := bind_eq_ok_iff.1 h
  obtain ⟨b, hb, h⟩ := bind_eq_ok_iff.1 h
  obtain ⟨u, hu, h⟩ := bind_eq_ok_iff.1 h
  exact bind_eq_ok_iff.2 ⟨a, ha, bind_eq_ok_iff.2 ⟨b, hb, bind_eq_ok_iff.2
    ⟨_, modifyAt_withOrder hu order, modifyAt_withOrder h order⟩⟩⟩

/-- A tree can be made with any other schedule. -/
theorem ofEdges_withOrder {factors : List (Factor W L)} {edges : List (Int × Int)}
    {order : List Int} (h : ofEdges factors edges order = .ok t) (more : List Int) :
    ofEdges factors edges more = .ok { t with order := more } := by
  have hfold : ∀ (edges : List (Int × Int)) (s : CliqueTree W L), edges.foldlM join s = .ok t →
      edges.foldlM join { s with order := more } = .ok { t with order := more } := by
    intro edges
    induction edges with
    | nil =>
      intro s h
      cases h
      rfl
    | cons e edges ih =>
      intro s h
      rw [List.foldlM_cons] at h ⊢
      obtain ⟨u, hu, h⟩ := bind_eq_ok_iff.1 h
      exact bind_eq_ok_iff.2 ⟨_, join_withOrder hu more, ih u h⟩
  exact hfold edges _ h

variable {hint : List Int} {n : ℕ}

/-- The position that a hint gives to a clique. -/
def positionIn (hint : List Int) (i : ℕ) : Int := hint.getD i 0

/-- The cliques in the order of their positions. -/
def hintOrder (hint : List Int) (n : ℕ) : List ℕ :=
  arrange (fun i j => decide (positionIn hint i ≤ positionIn hint j)) (List.range n)

theorem orderOfHint_eq_ok (h : hint.Perm ((List.range n).map Int.ofNat)) :
    orderOfHint hint n = .ok (hintOrder hint n) := by
  unfold orderOfHint
  exact if_pos (List.isPerm_iff.2 h)

/-- The positions of a permutation are different. -/
theorem positionIn_injective (h : hint.Perm ((List.range n).map Int.ofNat)) {i j : ℕ} (hi : i < n)
    (hj : j < n) (he : positionIn hint i = positionIn hint j) : i = j := by
  have hlength : hint.length = n := by rw [h.length_eq, List.length_map, List.length_range]
  have hnodup : hint.Nodup := h.nodup_iff.2
    (List.nodup_range.map fun a b hab => Int.ofNat.inj hab)
  have hget : ∀ {k}, (hk : k < n) → positionIn hint k = hint.get ⟨k, hlength ▸ hk⟩ := fun hk => by
    rw [positionIn, List.getD_eq_getElem?_getD, List.getElem?_eq_getElem (hlength ▸ hk)]
    rfl
  rw [hget hi, hget hj] at he
  exact Fin.mk.inj_iff.1 (hnodup.injective_get he)

/-- The schedule of a hint visits the cliques by ascending position. -/
theorem hintOrder_pairwise (h : hint.Perm ((List.range n).map Int.ofNat)) :
    (hintOrder hint n).Pairwise (positionIn hint · < positionIn hint ·) := by
  have hperm : (hintOrder hint n).Perm (List.range n) := arrange_perm _ _
  have hsorted : (hintOrder hint n).Pairwise
      fun i j => decide (positionIn hint i ≤ positionIn hint j) = true := arrange_pairwise
    (fun i j => by simpa using le_total (positionIn hint i) (positionIn hint j))
    (fun i j k hij hjk => by
      rw [decide_eq_true_iff] at hij hjk ⊢
      exact hij.trans hjk) (List.range n)
  have hne : (hintOrder hint n).Pairwise (· ≠ ·) := hperm.nodup_iff.2 List.nodup_range
  refine (List.pairwise_and_iff.2 ⟨hsorted, hne⟩).imp_of_mem fun {i j} hi hj hij => ?_
  have hlt : ∀ {k}, k ∈ hintOrder hint n → k < n := fun hk =>
    List.mem_range.1 (hperm.mem_iff.1 hk)
  exact lt_of_le_of_ne (of_decide_eq_true hij.1) fun he =>
    hij.2 (positionIn_injective h (hlt hi) (hlt hj) he)

variable [WeightScale W] [WeightScale L] [LogConversion W L] {g : FactorGraph W L}

/-- Two sweeps along a hint deliver all messages exactly if no path is blocked. -/
theorem Built.delivers_withHint (ht : Built g t)
    (h : hint.Perm ((List.range t.size).map Int.ofNat)) :
    CliqueTree.Delivers { t with order := (hintOrder hint t.size).map Int.ofNat }
      ↔ ¬ Blocked t.graph (positionIn hint) := by
  have hvisits : CliqueTree.visits { t with order := (hintOrder hint t.size).map Int.ofNat }
      = hintOrder hint t.size := by
    rw [visits, List.map_map]
    exact List.map_id _
  have hmem : ∀ {u w}, t.graph.Adj u w → u ∈ hintOrder hint t.size := fun hadj =>
    (arrange_perm _ _).mem_iff.2 (List.mem_range.2 (ht.wellBuilt.forest.lt_size hadj))
  rw [Delivers, hvisits]
  exact all_sent_iff (hintOrder_pairwise h) hmem

/-- The tree of a graph with a hint is the tree without it, except for its schedule. -/
theorem ofGraph_withHint (hg : g.Sound) (hnone : g.hint = none)
    (ht : (ofGraph true g).answer = .ok t) (h : hint.Perm ((List.range t.size).map Int.ofNat)) :
    (ofGraph true { g with hint := some hint }).answer
      = .ok { t with order := (hintOrder hint t.size).map Int.ofNat } := by
  obtain ⟨order', horder', hperm⟩ := (built_of_ofGraph hg ht).order_perm
  obtain ⟨factors, done, order, hfactors, hne, hdone, horder, hedges⟩ := ofGraph_eq_ok_iff.1 ht
  rw [hnone] at horder
  have hfound : done.order ++ done.remaining = order := Except.ok.inj horder
  have hsame : t = { t with order := order.map Int.ofNat } :=
    Except.ok.inj (hedges.symm.trans (ofEdges_withOrder hedges _))
  have horders : t.order = order.map Int.ofNat := congrArg CliqueTree.order hsame
  have hlength : order.length = t.size := by
    rw [← List.length_map (f := Int.ofNat), ← horders, horder', List.length_map, hperm.length_eq,
      List.length_range]
  refine ofGraph_eq_ok_iff.2 ⟨factors, done, hintOrder hint t.size, hfactors, hne, hdone, ?_,
    ofEdges_withOrder hedges _⟩
  rw [hfound]
  change orderOfHint hint order.length = _
  rw [hlength]
  exact orderOfHint_eq_ok h

/-- Without a hint it does not matter whether hints are followed. -/
theorem ofGraph_of_no_hint (hnone : g.hint = none) (ht : (ofGraph true g).answer = .ok t) :
    (ofGraph false g).answer = .ok t := by
  obtain ⟨factors, done, order, hfactors, hne, hdone, horder, hedges⟩ := ofGraph_eq_ok_iff.1 ht
  rw [hnone] at horder
  exact ofGraph_eq_ok_iff.2 ⟨factors, done, order, hfactors, hne, hdone, horder, hedges⟩

end CliqueTree

variable {W L : Type} [WeightScale W] [WeightScale L] [LogConversion W L] {g : FactorGraph W L}
  {t : CliqueTree W L} {hint : List Int}

/-- Sets of marginals that say the same: they have the same total, and their factors have the same
axes and the same weights. -/
structure MarginalSet.SameAs (m n : MarginalSet W L) : Prop where
  /-- The totals are the same. -/
  total_eq : n.total = m.total
  /-- The factors are the same, one by one. -/
  factors_eq : List.Forall₂ (fun f k : Factor W L => k.scope = f.scope ∧
    ∀ x, InRange f.scope.axes x → k.weightAt x = f.weightAt x) m.factors n.factors

theorem MarginalSet.SameAs.refl (m : MarginalSet W L) : m.SameAs m where
  total_eq := rfl
  factors_eq := List.forall₂_same.2 fun _ _ => ⟨rfl, fun _ _ => rfl⟩

variable [Semifield W] [LinearOrder W]

/-- Marginals of all cliques of one tree are the same. -/
theorem MarginalSet.SameAs.of_isGlobal (hg : g.Sound) {m n : MarginalSet W L} (hm : ExactFor g m)
    (hn : ExactFor g n)
    (hmt : List.Forall₂ (Passing.IsGlobal g.freeAxes t) (List.range t.size) m.factors)
    (hnt : List.Forall₂ (Passing.IsGlobal g.freeAxes t) (List.range t.size) n.factors) :
    m.SameAs n where
  total_eq := hn.total_eq.trans hm.total_eq.symm
  factors_eq := by
    refine List.forall₂_iff_get.2
      ⟨hmt.length_eq.symm.trans hnt.length_eq, fun i hi hi' => ?_⟩
    have hrange : i < (List.range t.size).length := by rwa [hmt.length_eq]
    obtain ⟨⟨c, hc, hscope⟩, hweight⟩ := hmt.get hrange hi
    obtain ⟨⟨d, hd, hscope'⟩, hweight'⟩ := hnt.get hrange hi'
    rw [hc, Option.some.injEq] at hd
    subst hd
    have hsame : (n.factors.get ⟨i, hi'⟩).scope = (m.factors.get ⟨i, hi⟩).scope :=
      hscope'.trans hscope.symm
    refine ⟨hsame, fun x hx => ?_⟩
    have hin : (m.factors.get ⟨i, hi⟩).scope.Within g.freeAxes :=
      hm.within _ (List.get_mem _ _)
    obtain ⟨y, hy, hyx⟩ := exists_inRange hg.card_pos hg.freeNames_nodup hin hx
    have hvars := Factor.vars_eq_of_scope_eq hsame
    have hxy : ∀ v ∈ (m.factors.get ⟨i, hi⟩).vars, x v = y v := fun v hv =>
      (hyx v (Factor.mem_vars.1 hv)).symm
    rw [Factor.reads_weightAt _ x y hxy, Factor.reads_weightAt _ x y (hvars ▸ hxy), hweight y hy,
      hweight' y hy]

variable [IsStrictOrderedRing W] [CanonicallyOrderedAdd W] [ExactScale W] [ExactLog W L]

namespace Engine

open MarginalSet MaxMarginalSet CliqueTree

/-- Whether an engine gets through with a hint: it does not look at hints, it needs no tree, or no
path of the tree is blocked by the positions that the hint gives. -/
def Serves (e : Engine) (g : FactorGraph W L) (hint : List Int) : Prop :=
  e.useHint = false ∨ (g.freeNames = [] ∨ (soleFactor? g).isSome = true) ∨
    ∃ t, (ofGraph false g).answer = .ok t ∧ ¬ Blocked t.graph (positionIn hint)

omit [Semifield W] [LinearOrder W] [IsStrictOrderedRing W] [CanonicallyOrderedAdd W] [ExactScale W]
  [ExactLog W L] in
/-- An engine that does not look at hints, or needs no tree, has the answers that it has without the
hint. -/
theorem withHint_of_not_read {e : Engine} (h : e.useHint = false ∨
    (g.freeNames = [] ∨ (soleFactor? g).isSome = true)) :
    e.marginals { g with hint := some hint } = e.marginals g ∧
      e.maxMarginals { g with hint := some hint } = e.maxMarginals g := by
  have hnames : FactorGraph.freeNames { g with hint := some hint } = g.freeNames := rfl
  have hsole : soleFactor? { g with hint := some hint } = soleFactor? g := rfl
  rcases h with hplain | hfree | hf
  · obtain ⟨useHint⟩ := e
    cases hplain
    exact ⟨rfl, rfl⟩
  · rw [marginals, marginals, maxMarginals, maxMarginals, hnames, hfree]
    exact ⟨rfl, rfl⟩
  · obtain ⟨f, hf⟩ := Option.isSome_iff_exists.1 hf
    rw [marginals, marginals, maxMarginals, maxMarginals, hsole, hnames, hf]
    exact ⟨rfl, rfl⟩

section Tree

variable (hg : g.Sound) (hnone : g.hint = none) (hfree : g.freeNames ≠ [])
  (hsole : soleFactor? g = none) (ht : (ofGraph true g).answer = .ok t)
  (h : hint.Perm ((List.range t.size).map Int.ofNat))
include hg hnone hfree hsole ht h

/-- The marginals of a tree are the same with a hint, if no path is blocked. -/
theorem marginals_withHint_of_tree {m : MarginalSet W L}
    (hm : (standard.marginals g).answer = .ok m) :
    (¬ Blocked t.graph (positionIn hint) ∧ ∃ n,
      (standard.marginals { g with hint := some hint }).answer = .ok n ∧ m.SameAs n) ∨
    (Blocked t.graph (positionIn hint) ∧ ∃ k i : ℕ,
      (standard.marginals { g with hint := some hint }).answer = .error (.messageMissing k i)) := by
  have hg' : FactorGraph.Sound { g with hint := some hint } :=
    ⟨hg.keys_nodup, hg.states_ne_nil, hg.within⟩
  have ht' := ofGraph_withHint hg hnone ht h
  have hiff := (built_of_ofGraph hg ht).delivers_withHint h
  have hexact : g.partitionFunction ≠ 0 ∧ ExactFor g m ∧
      List.Forall₂ (Passing.IsGlobal g.freeAxes t) (List.range t.size) m.factors := by
    by_cases hall : t.Delivers
    · rcases marginals_of_delivers (e := standard) hg hfree hsole ht hall with
        ⟨-, herror⟩ | ⟨hz, m', hm', hexact, hglobal⟩
      · cases herror.symm.trans hm
      · cases hm'.symm.trans hm
        exact ⟨hz, hexact, hglobal⟩
    · obtain ⟨k, i, herror⟩ := marginals_of_not_delivers (e := standard) hg hfree hsole ht hall
      cases herror.symm.trans hm
  obtain ⟨hz, hmexact, hmglobal⟩ := hexact
  by_cases hblocked : Blocked t.graph (positionIn hint)
  · exact Or.inr ⟨hblocked, marginals_of_not_delivers (e := standard) hg' hfree hsole ht'
      fun hall => hiff.1 hall hblocked⟩
  · rcases marginals_of_delivers (e := standard) hg' hfree hsole ht' (hiff.2 hblocked) with
      ⟨hz', -⟩ | ⟨-, n, hn, hnexact, hnglobal⟩
    · exact absurd hz' hz
    · refine Or.inl ⟨hblocked, n, hn, SameAs.of_isGlobal hg hmexact ?_ hmglobal hnglobal⟩
      exact ⟨hnexact.total_eq, hnexact.within, hnexact.cover, hnexact.weight_eq,
        hnexact.totalWeight_eq, hnexact.conditioned_eq⟩

/-- The max-marginals of a tree are decoded as well with a hint, if no path is blocked. -/
theorem maxMarginals_withHint_of_tree :
    (¬ Blocked t.graph (positionIn hint) ∧ ∃ n,
      (standard.maxMarginals { g with hint := some hint }).answer = .ok n ∧ Decodes g n) ∨
    (Blocked t.graph (positionIn hint) ∧ ∃ k i : ℕ,
      (standard.maxMarginals { g with hint := some hint }).answer
        = .error (.messageMissing k i)) := by
  have hg' : FactorGraph.Sound { g with hint := some hint } :=
    ⟨hg.keys_nodup, hg.states_ne_nil, hg.within⟩
  have ht' := ofGraph_withHint hg hnone ht h
  have hiff := (built_of_ofGraph hg ht).delivers_withHint h
  by_cases hblocked : Blocked t.graph (positionIn hint)
  · exact Or.inr ⟨hblocked, maxMarginals_of_not_delivers (e := standard) hg' hfree hsole ht'
      fun hall => hiff.1 hall hblocked⟩
  · obtain ⟨n, hn, a, ha, hbest⟩ :=
      maxMarginals_of_delivers (e := standard) hg' hfree hsole ht' (hiff.2 hblocked)
    exact Or.inl ⟨hblocked, n, hn, a, ha, hbest.assigned, hbest.observed, hbest.best⟩

end Tree

section Hint

variable {e : Engine} (hg : FactorGraph.Reachable g) (hnone : g.hint = none)
  {fs : List (Factor W L)} (hfs : g.minimalFactors = .ok fs)
  (hperm : hint.Perm ((List.range fs.length).map Int.ofNat))
include hg hnone hfs hperm

omit [Semifield W] [LinearOrder W] [IsStrictOrderedRing W] [CanonicallyOrderedAdd W] [ExactScale W]
  [ExactLog W L] in
/-- With a tree, a hint serves if it blocks no path. -/
theorem serves_iff_of_tree (hfree : g.freeNames ≠ []) (hsole : soleFactor? g = none)
    (ht : (ofGraph true g).answer = .ok t) :
    hint.Perm ((List.range t.size).map Int.ofNat) ∧
      (Serves standard g hint ↔ ¬ Blocked t.graph (positionIn hint)) := by
  have hsize : fs.length = t.size := by
    rw [Except.ok.inj (hfs.symm.trans (built_of_ofGraph hg.sound ht).factors_eq),
      List.length_map, size]
  have hplain := ofGraph_of_no_hint hnone ht
  refine ⟨hsize ▸ hperm, fun hs => ?_, fun hb => Or.inr (Or.inr ⟨t, hplain, hb⟩)⟩
  rcases hs with hs | (hs | hs) | ⟨u, hu, hb⟩
  · cases hs
  · exact absurd hs hfree
  · rw [hsole] at hs
    cases hs
  · cases hplain.symm.trans hu
    exact hb

/-- The marginals with a hint. -/
theorem marginals_withHint {m : MarginalSet W L} (hm : (e.marginals g).answer = .ok m) :
    (Serves e g hint → ∃ n, (e.marginals { g with hint := some hint }).answer = .ok n ∧
      m.SameAs n) ∧
    (¬ Serves e g hint → ∃ k i : ℕ,
      (e.marginals { g with hint := some hint }).answer = .error (.messageMissing k i)) := by
  by_cases hread : e.useHint = false ∨ (g.freeNames = [] ∨ (soleFactor? g).isSome = true)
  · rw [(withHint_of_not_read hread).1]
    exact ⟨fun _ => ⟨m, hm, .refl m⟩, fun hno => absurd (hread.imp_right Or.inl) hno⟩
  · obtain ⟨huse, hfree, hsole⟩ := by simpa using hread
    obtain rfl : e = standard := by rw [standard, ← huse]
    cases ht : (ofGraph true g).answer with
    | error fault =>
      rw [marginals_eq_throughTree hfree hsole, throughTree_of_no_tree (e := standard) ht] at hm
      cases hm
    | ok t =>
      obtain ⟨hperm, hiff⟩ := serves_iff_of_tree hg hnone hfs hperm hfree hsole ht
      rcases marginals_withHint_of_tree hg.sound hnone hfree hsole ht hperm hm with
        ⟨hb, hsame⟩ | ⟨hb, herror⟩
      · exact ⟨fun _ => hsame, fun hno => absurd (hiff.2 hb) hno⟩
      · exact ⟨fun hs => absurd hb (hiff.1 hs), fun _ => herror⟩

/-- The max-marginals with a hint. -/
theorem maxMarginals_withHint {m : MaxMarginalSet W L} (hm : (e.maxMarginals g).answer = .ok m) :
    (Serves e g hint → ∃ n a b, (e.maxMarginals { g with hint := some hint }).answer = .ok n ∧
      m.bestAssignment = .ok a ∧ n.bestAssignment = .ok b ∧ BestFor g b ∧
      g.jointWeightAt (stateOf b) = g.jointWeightAt (stateOf a)) ∧
    (¬ Serves e g hint → ∃ k i : ℕ,
      (e.maxMarginals { g with hint := some hint }).answer = .error (.messageMissing k i)) := by
  obtain ⟨a, ha, hbest⟩ := decodes_of_maxMarginals hg hm
  by_cases hread : e.useHint = false ∨ (g.freeNames = [] ∨ (soleFactor? g).isSome = true)
  · rw [(withHint_of_not_read hread).2]
    exact ⟨fun _ => ⟨m, a, a, hm, ha, ha, hbest, rfl⟩,
      fun hno => absurd (hread.imp_right Or.inl) hno⟩
  · obtain ⟨huse, hfree, hsole⟩ := by simpa using hread
    obtain rfl : e = standard := by rw [standard, ← huse]
    cases ht : (ofGraph true g).answer with
    | error fault =>
      rw [maxMarginals_eq_throughTree hfree hsole, throughTree_of_no_tree (e := standard) ht] at hm
      cases hm
    | ok t =>
      obtain ⟨hperm, hiff⟩ := serves_iff_of_tree hg hnone hfs hperm hfree hsole ht
      rcases maxMarginals_withHint_of_tree hg.sound hnone hfree hsole ht hperm with
        ⟨hb, n, hn, b, hnb, hnbest⟩ | ⟨hb, herror⟩
      · refine ⟨fun _ => ⟨n, a, b, hn, ha, hnb, hnbest, ?_⟩, fun hno => absurd (hiff.2 hb) hno⟩
        rw [hnbest.weight_eq hg.sound JointState.origin,
          hbest.weight_eq hg.sound JointState.origin]
      · exact ⟨fun hs => absurd hb (hiff.1 hs), fun _ => herror⟩

end Hint

/-- An engine that answers a graph without a hint gives the same answer with one, if the hint
serves; if not, it fails with a missing message. -/
theorem answers_withHint {e : Engine} (hg : FactorGraph.Reachable g) (hnone : g.hint = none)
    {fs : List (Factor W L)} (hfs : g.minimalFactors = .ok fs)
    (hperm : hint.Perm ((List.range fs.length).map Int.ofNat)) {g' : FactorGraph W L}
    (hg' : g.withHint hint = .ok g') :
    (∀ m, (e.marginals g).answer = .ok m →
      (Serves e g hint → ∃ n, (e.marginals g').answer = .ok n ∧ m.SameAs n) ∧
      (¬ Serves e g hint →
        ∃ k i : ℕ, (e.marginals g').answer = .error (.messageMissing k i))) ∧
    (∀ m, (e.maxMarginals g).answer = .ok m →
      (Serves e g hint → ∃ n a b, (e.maxMarginals g').answer = .ok n ∧
        m.bestAssignment = .ok a ∧ n.bestAssignment = .ok b ∧ BestFor g b ∧
        g.jointWeightAt (stateOf b) = g.jointWeightAt (stateOf a)) ∧
      (¬ Serves e g hint →
        ∃ k i : ℕ, (e.maxMarginals g').answer = .error (.messageMissing k i))) := by
  have hread : hint.mapM (StateValue.toInt : Int → Except Fault Int) = .ok hint := by
    have hall : hint.mapM (StateValue.toInt : Int → Except Fault Int) = .ok (hint.map id) :=
      mapM_eq_ok fun _ _ => rfl
    rwa [List.map_id] at hall
  have hgraph : g' = { g with hint := some hint } := by
    rw [FactorGraph.withHint, hread] at hg'
    exact (Except.ok.inj hg').symm
  subst hgraph
  exact ⟨fun _ hm => marginals_withHint hg hnone hfs hperm hm,
    fun _ hm => maxMarginals_withHint hg hnone hfs hperm hm⟩

/-- A chain of four factors, which are the cliques of its tree. -/
def chainOfFactors : List (Factor ℚ≥0 (FormalLog ℚ≥0)) :=
  [pairFactor "P" "Q" 1 2 3 4, pairFactor "Q" "R" 2 1 1 2,
    pairFactor "R" "S" 1 3 2 1, pairFactor "S" "T" 5 1 1 2]

/-- Whether an answer is the failure of a missing message. -/
def missesMessage {α : Type} : Except Fault α → Bool
  | .error (.messageMissing _ _) => true
  | _ => false

theorem exists_of_missesMessage {α : Type} {x : Except Fault α} (h : missesMessage x = true) :
    ∃ k i : Int, x = .error (.messageMissing k i) := by
  unfold missesMessage at h
  split at h
  · exact ⟨_, _, rfl⟩
  · cases h

/-- What is run on the chain with and without a hint. -/
def chainRuns (hint : List Int) (check : Except Fault (MarginalSet ℚ≥0 (FormalLog ℚ≥0)) → Bool) :
    Bool :=
  match FactorGraph.ofFactors chainOfFactors with
  | .error _ => false
  | .ok g =>
    match g.minimalFactors, g.withHint hint with
    | .ok fs, .ok g' =>
      g.hint.isNone && hint.isPerm ((List.range fs.length).map Int.ofNat)
        && (standard.marginals g).answer.toBool && check (standard.marginals g').answer
    | _, _ => false

theorem exists_of_chainRuns (hint : List Int)
    (check : Except Fault (MarginalSet ℚ≥0 (FormalLog ℚ≥0)) → Bool)
    (h : chainRuns hint check = true) :
    ∃ g fs g' m, FactorGraph.ofFactors chainOfFactors = .ok g ∧ g.hint = none ∧
      g.minimalFactors = .ok fs ∧ hint.Perm ((List.range fs.length).map Int.ofNat) ∧
      g.withHint hint = .ok g' ∧ (standard.marginals g).answer = .ok m ∧
      check (standard.marginals g').answer = true := by
  unfold chainRuns at h
  split at h
  · cases h
  next g hg =>
    split at h
    next fs g' hfs hg' =>
      simp only [Bool.and_eq_true, Option.isNone_iff_eq_none, List.isPerm_iff] at h
      obtain ⟨⟨⟨hnone, hperm⟩, hok⟩, hcheck⟩ := h
      obtain ⟨m, hm⟩ := exists_of_toBool hok
      exact ⟨g, fs, g', m, hg, hnone, hfs, hperm, hg', hm, hcheck⟩
    next => cases h

/-- A hint under which the chain has no answer any more: the second clique is visited before the
first and the third. -/
theorem missing_chainOfFactors :
    ∃ g fs g' m, FactorGraph.ofFactors chainOfFactors = .ok g ∧ g.hint = none ∧
      g.minimalFactors = .ok fs ∧ [2, 0, 1, 3].Perm ((List.range fs.length).map Int.ofNat) ∧
      g.withHint ([2, 0, 1, 3] : List Int) = .ok g' ∧ (standard.marginals g).answer = .ok m ∧
      ∃ k i : Int, (standard.marginals g').answer = .error (.messageMissing k i) := by
  obtain ⟨g, fs, g', m, hg, hnone, hfs, hperm, hg', hm, hcheck⟩ :=
    exists_of_chainRuns [2, 0, 1, 3] missesMessage (by decide +kernel)
  exact ⟨g, fs, g', m, hg, hnone, hfs, hperm, hg', hm, exists_of_missesMessage hcheck⟩

/-- The reversed schedule of the chain serves. -/
theorem sameAs_chainOfFactors :
    ∃ g g' m n, FactorGraph.ofFactors chainOfFactors = .ok g ∧
      g.withHint ([3, 2, 1, 0] : List Int) = .ok g' ∧ (standard.marginals g).answer = .ok m ∧
      (standard.marginals g').answer = .ok n ∧ m.SameAs n := by
  obtain ⟨g, fs, g', m, hg, hnone, hfs, hperm, hg', hm, hcheck⟩ :=
    exists_of_chainRuns [3, 2, 1, 0] Except.toBool (by decide +kernel)
  obtain ⟨hserves, hmissing⟩ :=
    (answers_withHint (.ofFactors hg) hnone hfs hperm hg').1 m hm
  by_cases hs : Serves standard g [3, 2, 1, 0]
  · obtain ⟨n, hn, hsame⟩ := hserves hs
    exact ⟨g, g', m, n, hg, hg', hm, hn, hsame⟩
  · obtain ⟨k, i, herror⟩ := hmissing hs
    rw [herror] at hcheck
    cases hcheck

end Engine

end ExactInference
