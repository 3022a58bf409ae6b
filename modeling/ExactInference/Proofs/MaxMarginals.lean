import ExactInference.Proofs.BestAssignments
import ExactInference.Proofs.GraphCalls

/-!
# Exact max-marginals

The max-marginal of a clique weighs a joint state of its variables by the best way to extend it to
all variables that the clique is connected with. So it is the largest product of the minimal factors
of its component at the joint states that agree with it. All max-marginals of a component therefore
have the same largest weight, and two of them agree when they are maximized to the variables that
they share.
-/

namespace ExactInference

variable {W L : Type}

/-- The factors of some cliques. -/
def CliqueTree.factorsOf (t : CliqueTree W L) (is : List ℕ) : List (Factor W L) :=
  is.filterMap fun i => t.cliques[i]?.map Clique.factor

namespace Factor

variable [LinearOrder W] [WeightScale W] [WeightScale L] [LogConversion W L]

/-- Whether a factor weighs every joint state of its variables by the largest product of some
factors at the joint states of all their variables that agree with it. -/
def IsMaxOf (fs : List (Factor W L)) (m : Factor W L) : Prop :=
  ∀ x, InRange m.scope.axes x → IsGreatest
    {w | ∃ y, (∀ f ∈ fs, InRange f.scope.axes y) ∧ (∀ n ∈ m.names, y n = x n) ∧
      w = FactorGraph.productAt fs y} (m.weights.weightAt x)

/-- Two factors that do not contradict each other. -/
structure Consistent (m k : Factor W L) : Prop where
  /-- They have the same largest weight. -/
  largest_eq : WeightScale.largest m.weights.toList = WeightScale.largest k.weights.toList
  /-- They can be maximized to the variables that they share, and agree then. -/
  shared : ∃ m' k', m.maxMarginalize (m.names.filter fun v => !k.names.contains v) = .ok m' ∧
    k.maxMarginalize (k.names.filter fun v => !m.names.contains v) = .ok k' ∧
    (∀ v, v ∈ m'.names ↔ v ∈ m.names ∧ v ∈ k.names) ∧
    (∀ v, v ∈ k'.names ↔ v ∈ m.names ∧ v ∈ k.names) ∧
    ∀ x, InRange m'.scope.axes x → m'.weights.weightAt x = k'.weights.weightAt x

end Factor

namespace CliqueTree

variable {t : CliqueTree W L} {axes : List Axis} {i j : ℕ} {m k : Factor W L} {c : List ℕ}
  {x y : JointState}

theorem mem_factorsOf {is : List ℕ} {f : Factor W L} :
    f ∈ t.factorsOf is ↔ ∃ i ∈ is, ∃ d, t.cliques[i]? = some d ∧ d.factor = f := by
  simp only [factorsOf, List.mem_filterMap, Option.map_eq_some_iff]

variable [Semifield W] [LinearOrder W] [WeightScale W] [WeightScale L] [LogConversion W L]
  [ExactScale W]

/-- The product of the factors of some cliques multiplies the weights of the cliques. -/
theorem productAt_factorsOf (t : CliqueTree W L) (is : List ℕ) (y : JointState) :
    FactorGraph.productAt (t.factorsOf is) y = (is.map (t.weightOf · y)).prod := by
  rw [Factor.productAt_eq_prod]
  induction is with
  | nil => rfl
  | cons i is ih =>
    rw [List.map_cons, List.prod_cons, ← ih, factorsOf, List.filterMap_cons, weightOf]
    cases t.cliques[i]? with
    | none => simp [factorsOf]
    | some d => simp [factorsOf]

omit [Semifield W] [LinearOrder W] [WeightScale W] [WeightScale L] [LogConversion W L]
  [ExactScale W] in
/-- A component holds the cliques of a tree of the forest. -/
theorem toFinset_component (h : t.WellBuilt axes) (hc : c ∈ t.components) (hi : i ∈ c) :
    c.toFinset = treeOf t.size t.graph i := by
  ext j
  rw [List.mem_toFinset, h.forest.mem_treeOf (lt_size_of_mem_component hc hi)]
  exact mem_component_iff h hc hi

/-- The product of a component is the product of a tree of the forest. -/
theorem productAt_component (h : t.WellBuilt axes) (hc : c ∈ t.components) (hi : i ∈ c)
    (y : JointState) : FactorGraph.productAt (t.factorsOf c) y
      = ∏ j ∈ treeOf t.size t.graph i, t.weightOf j y := by
  rw [productAt_factorsOf, ← toFinset_component h hc hi,
    List.prod_toFinset _ (nodup_component hc)]

namespace IsFinal

variable {mode : Mode}

omit [ExactScale W] in
theorem mem_scopeOf_iff (hm : IsFinal mode axes t i m) {n : String} :
    n ∈ t.scopeOf i ↔ n ∈ m.names := by
  rw [← hm.vars_eq]
  exact Factor.mem_vars

omit [ExactScale W] in
/-- A final marginal is read at a joint state of all variables. -/
theorem exists_weightAt_eq (hm : IsFinal mode axes t i m) (h : t.WellBuilt axes)
    (hd : (axes.map Axis.name).Nodup) (hpos : ∀ a ∈ axes, 0 < a.card)
    (hx : InRange m.scope.axes x) :
    ∃ x', InRange axes x' ∧ (∀ n ∈ m.names, x' n = x n) ∧
      m.weights.weightAt x = t.treeMarginal mode axes i x' := by
  obtain ⟨x', hx', hxx⟩ := exists_inRange hpos hd (hm.within h) hx
  refine ⟨x', hx', hxx, ?_⟩
  rw [← hm.2 x' hx']
  exact m.reads_weightAt x x' fun n hn => (hxx n (Factor.mem_vars.1 hn)).symm

variable [CanonicallyOrderedAdd W]

/-- A final max-marginal only has weights of joint states of its component. -/
theorem exists_productAt_eq (hm : IsFinal .max axes t i m) (h : t.WellBuilt axes)
    (hd : (axes.map Axis.name).Nodup) (hpos : ∀ a ∈ axes, 0 < a.card) (hc : c ∈ t.components)
    (hi : i ∈ c) (hx : InRange m.scope.axes x) :
    ∃ y, InRange axes y ∧ (∀ n ∈ m.names, y n = x n) ∧
      m.weights.weightAt x = FactorGraph.productAt (t.factorsOf c) y := by
  obtain ⟨x', hx', hxx, hweight⟩ := hm.exists_weightAt_eq h hd hpos hx
  obtain ⟨y, hy, hyx, hprod⟩ := exists_eq_cliqueMarginal t.scopeOf t.weightOf hd hx'
    (treeOf t.size t.graph i) (t.scopeOf i)
  refine ⟨y, hy, fun n hn => (hyx n (hm.mem_scopeOf_iff.2 hn)).trans (hxx n hn), ?_⟩
  rw [hweight, productAt_component h hc hi]
  exact hprod

/-- No joint state of its component weighs more than a final max-marginal says. -/
theorem productAt_le [IsStrictOrderedRing W] (hm : IsFinal .max axes t i m) (h : t.WellBuilt axes)
    (hd : (axes.map Axis.name).Nodup) (hpos : ∀ a ∈ axes, 0 < a.card) (hc : c ∈ t.components)
    (hi : i ∈ c) (hx : InRange m.scope.axes x)
    (hy : ∀ f ∈ t.factorsOf c, InRange f.scope.axes y) (hyx : ∀ n ∈ m.names, y n = x n) :
    FactorGraph.productAt (t.factorsOf c) y ≤ m.weights.weightAt x := by
  obtain ⟨x', hx', hxx, hweight⟩ := hm.exists_weightAt_eq h hd hpos hx
  have hstates : ∀ a ∈ axes, a.name ∈ (treeOf t.size t.graph i).biUnion t.scopeOf →
      y a.name < a.card := by
    intro a ha hn
    obtain ⟨j, hj, hnj⟩ := Finset.mem_biUnion.1 hn
    rw [← toFinset_component h hc hi, List.mem_toFinset] at hj
    cases hdj : t.cliques[j]? with
    | none => simp [scopeOf, hdj] at hnj
    | some d =>
      rw [scopeOf_eq hdj, Factor.mem_vars] at hnj
      exact hy _ (mem_factorsOf.2 ⟨j, hj, d, hdj, rfl⟩) a ((h.within hdj).mem_of_name hd ha hnj)
  -- Variables of other components may be out of range, and do not matter.
  obtain ⟨y', hy', hyy⟩ := exists_inRange_of_names hpos hstates
  have hreads : Reads (fun y => ∏ j ∈ treeOf t.size t.graph i, t.weightOf j y)
      ((treeOf t.size t.graph i).biUnion t.scopeOf) := Reads.prod fun j _ => t.reads_weightOf j
  have hself : t.scopeOf i ⊆ (treeOf t.size t.graph i).biUnion t.scopeOf :=
    IsJoinForest.scope_subset_tree t.scopeOf (lt_size_of_mem_component hc hi)
  calc FactorGraph.productAt (t.factorsOf c) y
      = ∏ j ∈ treeOf t.size t.graph i, t.weightOf j y := productAt_component h hc hi y
    _ = ∏ j ∈ treeOf t.size t.graph i, t.weightOf j y' :=
      hreads y y' fun n hn => (hyy n hn).symm
    _ ≤ t.treeMarginal .max axes i y' := prod_le_cliqueMarginal .max hd hy' _ _
    _ = t.treeMarginal .max axes i x' := by
      refine reads_cliqueMarginal .max t.reads_weightOf h.scopeOf_subset _ _ y' x' fun n hn => ?_
      have hn' := hm.mem_scopeOf_iff.1 hn
      rw [hyy n (hself hn), hyx n hn', hxx n hn']
    _ = m.weights.weightAt x := hweight.symm

/-- A final max-marginal weighs a joint state by its best extension to the component. -/
theorem isMaxOf [IsStrictOrderedRing W] (hm : IsFinal .max axes t i m) (h : t.WellBuilt axes)
    (hd : (axes.map Axis.name).Nodup) (hpos : ∀ a ∈ axes, 0 < a.card) (hc : c ∈ t.components)
    (hi : i ∈ c) : m.IsMaxOf (t.factorsOf c) := by
  intro x hx
  constructor
  · obtain ⟨y, hy, hyx, hweight⟩ := hm.exists_productAt_eq h hd hpos hc hi hx
    refine ⟨y, fun f hf => ?_, hyx, hweight⟩
    obtain ⟨j, -, d, hdj, rfl⟩ := mem_factorsOf.1 hf
    exact (h.within hdj).inRange hy
  · rintro w ⟨y, hy, hyx, rfl⟩
    exact hm.productAt_le h hd hpos hc hi hx hy hyx

variable [ExactLog W L]

/-- Eliminating variables of a final marginal leaves the marginal that keeps the others. -/
theorem weightAt_reduced (hm : IsFinal mode axes t i m) (h : t.WellBuilt axes)
    (hd : (axes.map Axis.name).Nodup) (hi : i < t.size) {ns : List String}
    (hns : ∀ n ∈ ns, n ∈ m.names) (hx : InRange axes x) :
    (m.reduced mode ns).weightAt x = cliqueMarginal mode axes t.scopeOf t.weightOf
      (treeOf t.size t.graph i) (t.scopeOf i \ ns.toFinset) x := by
  have hdropped : ns.toFinset ⊆ t.scopeOf i := fun n hn =>
    hm.mem_scopeOf_iff.2 (hns n (List.mem_toFinset.1 hn))
  rw [Factor.weightAt_reduced mode hd (hm.within h) hns hx,
    Mode.collapse_congr mode fun y hy => hm.2 y (inRange_of_mem_variants hd hx hy),
    ← collapse_cliqueMarginal_sdiff mode hd Finset.sdiff_subset
      (IsJoinForest.scope_subset_tree t.scopeOf hi),
    Finset.sdiff_sdiff_eq_self hdropped]
  rfl

omit [ExactLog W L] in
/-- The largest weight of a final max-marginal is that of its tree. -/
theorem largest_eq (hm : IsFinal .max axes t i m) (h : t.WellBuilt axes)
    (hd : (axes.map Axis.name).Nodup) (hi : i < t.size) (hx : InRange axes x) :
    WeightScale.largest m.weights.toList = cliqueMarginal .max axes t.scopeOf t.weightOf
      (treeOf t.size t.graph i) ∅ x := by
  rw [Factor.largest_eq_collapse hd (hm.within h) x,
    Mode.collapse_congr .max fun y hy => hm.2 y (inRange_of_mem_variants hd hx hy), hm.vars_eq]
  exact collapse_cliqueMarginal .max hd (IsJoinForest.scope_subset_tree t.scopeOf hi) x

/-- A final max-marginal can be maximized to the variables that it shares with a factor. -/
theorem exists_shared (hm : IsFinal .max axes t i m) (h : t.WellBuilt axes)
    (hd : (axes.map Axis.name).Nodup) (hpos : ∀ a ∈ axes, 0 < a.card) (hi : i < t.size)
    (k : Factor W L) :
    ∃ m', m.maxMarginalize (m.names.filter fun v => !k.names.contains v) = .ok m' ∧
      (∀ v, v ∈ m'.names ↔ v ∈ m.names ∧ v ∈ k.names) ∧ m'.scope.Within axes ∧
      ∀ x, InRange axes x → m'.weightAt x = cliqueMarginal .max axes t.scopeOf t.weightOf
        (treeOf t.size t.graph i) (m.vars ∩ k.vars) x := by
  have hns : ∀ n ∈ m.names.filter fun v => !k.names.contains v, n ∈ m.names :=
    fun n hn => (List.mem_filter.1 hn).1
  have hscope := m.scope_reduced .max (m.names.filter fun v => !k.names.contains v)
  refine ⟨_, Factor.eliminate_eq_ok .max hpos (hm.within h) hns, fun v => ?_, ?_, fun x hx => ?_⟩
  · rw [Factor.names, hscope, Scope.mem_names_keep]
    simp only [List.contains_eq_mem, Bool.not_eq_true', decide_eq_false_iff_not, List.mem_filter]
    change v ∈ m.names ∧ _ ↔ _
    tauto
  · rw [hscope]
    exact (hm.within h).keep _
  · rw [hm.weightAt_reduced h hd hi hns hx, ← hm.vars_eq]
    congr 1
    ext v
    simp only [Finset.mem_sdiff, Finset.mem_inter, List.mem_toFinset, List.mem_filter,
      Factor.mem_vars, List.contains_eq_mem, Bool.not_eq_true', decide_eq_false_iff_not]
    tauto

/-- Final max-marginals of connected cliques do not contradict each other. -/
theorem consistent (hm : IsFinal .max axes t i m) (hk : IsFinal .max axes t j k)
    (h : t.WellBuilt axes) (hd : (axes.map Axis.name).Nodup) (hpos : ∀ a ∈ axes, 0 < a.card)
    (hi : i < t.size) (hj : j < t.size) (hij : t.graph.Reachable i j) : m.Consistent k := by
  have htree : treeOf t.size t.graph i = treeOf t.size t.graph j :=
    IsJoinForest.treeOf_eq_of_reachable hij
  obtain ⟨m', hm', hmnames, hwithin, hmweight⟩ := hm.exists_shared h hd hpos hi k
  obtain ⟨k', hk', hknames, -, hkweight⟩ := hk.exists_shared h hd hpos hj m
  constructor
  · rw [hm.largest_eq h hd hi (inRange_origin hpos), hk.largest_eq h hd hj (inRange_origin hpos),
      htree]
  · refine ⟨m', k', hm', hk', hmnames, fun v => (hknames v).trans and_comm, fun x hx => ?_⟩
    obtain ⟨x', hx', hxx⟩ := exists_inRange hpos hd hwithin hx
    calc m'.weightAt x
        = m'.weightAt x' := m'.reads_weightAt x x' fun n hn => (hxx n (Factor.mem_vars.1 hn)).symm
      _ = k'.weightAt x' := by rw [hmweight x' hx', hkweight x' hx', htree, Finset.inter_comm]
      _ = k'.weightAt x := k'.reads_weightAt x' x fun n hn =>
        hxx n ((hmnames n).2 ((hknames n).1 (Factor.mem_vars.1 hn)).symm)

end IsFinal

/-- Max-marginals of a tree that are exact. -/
structure MaxOfComponents (t : CliqueTree W L) (ms : List (Factor W L)) : Prop where
  /-- There is one for each clique. -/
  length_eq : ms.length = t.size
  /-- It is over the variables of the clique. -/
  scope_eq : ∀ (i : ℕ) (d : Clique W L) (m : Factor W L), t.cliques[i]? = some d →
    ms[i]? = some m → m.scope = d.factor.scope
  /-- It belongs to a component, and weighs every joint state by its best extension there. -/
  isMax : ∀ (i : ℕ) (m : Factor W L), ms[i]? = some m →
    ∃ c ∈ t.components, i ∈ c ∧ m.IsMaxOf (t.factorsOf c)
  /-- Two of one component do not contradict each other. -/
  consistent : ∀ c ∈ t.components, ∀ i ∈ c, ∀ j ∈ c, ∀ m k : Factor W L, ms[i]? = some m →
    ms[j]? = some k → m.Consistent k

variable [IsStrictOrderedRing W] [CanonicallyOrderedAdd W] [ExactLog W L]

/-- Message passing leaves exact max-marginals behind. -/
theorem Passed.maxOfComponents {roots : List Int} {ms : List (Factor W L)}
    (h : Passed .max axes t roots ms) (hbuilt : t.WellBuilt axes) (hd : (axes.map Axis.name).Nodup)
    (hpos : ∀ a ∈ axes, 0 < a.card) : t.MaxOfComponents ms := by
  have hfinal : ∀ {i m}, ms[i]? = some m → i < t.size ∧ IsFinal .max axes t i m := by
    intro i m hm
    have hi : i < t.size := h.length_eq ▸ (List.getElem?_eq_some_iff.1 hm).1
    obtain ⟨m', hm', hfinal⟩ := h.marginal hi
    cases hm'.symm.trans hm
    exact ⟨hi, hfinal⟩
  constructor
  case length_eq => exact h.length_eq
  case scope_eq =>
    intro i d m hd hm
    obtain ⟨-, ⟨d', hd', hscope⟩, -⟩ := hfinal hm
    cases hd'.symm.trans hd
    exact hscope
  case isMax =>
    intro i m hm
    obtain ⟨hi, hfinal⟩ := hfinal hm
    obtain ⟨c, hc, hic⟩ := List.mem_flatten.1
      ((components_perm t).mem_iff.2 (List.mem_range.2 hi))
    exact ⟨c, hc, hic, hfinal.isMaxOf hbuilt hd hpos hc hic⟩
  case consistent =>
    intro c hc i hi j hj m k hm hk
    obtain ⟨hisize, hmfinal⟩ := hfinal hm
    obtain ⟨hjsize, hkfinal⟩ := hfinal hk
    exact hmfinal.consistent hkfinal hbuilt hd hpos hisize hjsize
      ((mem_component_iff hbuilt hc hi).1 hj)

end CliqueTree

namespace Engine

open CliqueTree

variable [LinearOrder W] [WeightScale W] [WeightScale L] [LogConversion W L] {g : FactorGraph W L}
  {e : Engine}

/-- Max-marginals that are exact for a graph, whichever way the engine goes. -/
structure AnswersMax (e : Engine) (g : FactorGraph W L) (m : MaxMarginalSet W L) : Prop where
  /-- Without free variables there is none. -/
  of_no_names : g.freeNames = [] → m.factors = []
  /-- A single factor over all free variables is its own max-marginal. -/
  of_sole : g.freeNames ≠ [] → ∀ f, soleFactor? g = some f → m.factors = [f]
  /-- Otherwise they are those of the clique tree, which is made from the minimal factors. -/
  of_tree : g.freeNames ≠ [] → soleFactor? g = none → ∃ t, (ofGraph e.useHint g).answer = .ok t ∧
    g.minimalFactors = .ok (t.cliques.map Clique.factor) ∧ t.MaxOfComponents m.factors

variable [Semifield W] [IsStrictOrderedRing W] [CanonicallyOrderedAdd W] [ExactScale W]
  [ExactLog W L]

/-- Whatever an engine answers comes from messages that were all delivered. -/
theorem answersMax_of_answer (hg : g.Sound) {m : MaxMarginalSet W L}
    (h : (e.maxMarginals g).answer = .ok m) : e.AnswersMax g m := by
  constructor
  case of_no_names =>
    intro hfree
    rw [maxAnswer_of_no_names hfree] at h
    cases h
    rfl
  case of_sole =>
    intro hfree f hf
    rw [maxAnswer_of_sole hfree hf] at h
    cases h
    rfl
  case of_tree =>
    intro hfree hsole
    cases ht : (ofGraph e.useHint g).answer with
    | error fault =>
      rw [maxMarginals_eq_throughTree hfree hsole, throughTree_of_no_tree ht] at h
      cases h
    | ok t =>
      have hbuilt := built_of_ofGraph hg ht
      by_cases hall : t.Delivers
      · obtain ⟨roots, p, ms, q, hrun, hms, -, hpassed⟩ := hbuilt.passed hg .max hall
        have hextract : Passing.extractMaxMarginals roots g.conditioned ⟨p.tree, []⟩
            = .ok ⟨ms, g.conditioned, (q.tree.tracebackOrder roots).map Int.ofNat⟩ q :=
          (PassingStep.bind_of_ok hms).trans (PassingStep.inspect_of_ok rfl)
        rw [maxMarginals_eq_throughTree hfree hsole, throughTree_of_ok ht hrun hextract] at h
        cases h
        exact ⟨t, rfl, hbuilt.factors_eq,
          hpassed.maxOfComponents hbuilt.wellBuilt hg.freeNames_nodup hg.card_pos⟩
      · obtain ⟨k, i, herror⟩ := maxMarginals_of_not_delivers hg hfree hsole ht hall
        cases herror.symm.trans h

/-- Whenever an engine answers with max-marginals, they are exact: each weighs the joint states of
its variables by the largest product of the minimal factors of its component, and those of one
component do not contradict each other. Without a hint there only is no answer if there is no
tree. -/
theorem maxMarginals_exact (e : Engine) (hg : FactorGraph.Reachable g) :
    (∀ m, (e.maxMarginals g).answer = .ok m → e.AnswersMax g m) ∧
    (g.hint = none → ∀ fault, (e.maxMarginals g).answer = .error fault →
      fault.isConstruction = true) := by
  refine ⟨fun m hm => answersMax_of_answer hg.sound hm, fun hhint fault hfault => ?_⟩
  rcases equipped_or_refused (e := e) hg.sound hhint with h | ⟨refusal, hrefusal, -, hmax⟩
  · obtain ⟨m, hm⟩ := h.exists_maxMarginals hg.sound
    cases hfault.symm.trans hm
  · cases hfault.symm.trans hmax
    exact hrefusal

/-- Three components with zeros and an observation have exact max-marginals. -/
theorem maxMarginals_exact_islands :
    ∃ g m, islands = .ok g ∧ g.hint = none ∧ (standard.maxMarginals g).answer = .ok m ∧
      standard.AnswersMax g m := by
  obtain ⟨g, hg, hcheck⟩ := exists_of_passes (x := islands)
    (fun g => g.hint.isNone && (standard.maxMarginals g).answer.toBool) (by decide +kernel)
  simp only [Bool.and_eq_true, Option.isNone_iff_eq_none] at hcheck
  obtain ⟨m, hm⟩ := exists_of_toBool hcheck.2
  exact ⟨g, m, hg, hcheck.1, hm, (maxMarginals_exact standard (reachable_of_islands hg)).1 m hm⟩

end Engine

end ExactInference
