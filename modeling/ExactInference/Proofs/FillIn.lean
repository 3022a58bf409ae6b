import ExactInference.Proofs.Completeness
import ExactInference.Proofs.ExactMarginals

/-!
# Which graphs have a tree

No minimal factor lies inside another one, except for one factor without variables beside uniform
ones: clusters are started from the largest scope down, and a uniform factor is added for a variable
that no factor mentions. So without a hint a graph has a tree exactly if there is a join forest of
its minimal factors, whatever the order in which variables and factors arrived; otherwise the
cliques that are stuck are reported.
-/

namespace ExactInference

variable {W L : Type}

/-- Two lists of names none of which lies inside the other, unless just one of them is empty. -/
def Apart (s t : List String) : Prop :=
  (s ⊆ t → s = [] ∧ t ≠ []) ∧ (t ⊆ s → t = [] ∧ s ≠ [])

theorem Apart.symm {s t : List String} (h : Apart s t) : Apart t s := ⟨h.2, h.1⟩

/-- Lists that are apart from each other are incomparable as sets. -/
theorem incomparable_of_pairwise {scopes : List (List String)} (h : scopes.Pairwise Apart) :
    Incomparable (scopeSets scopes) (Finset.range scopes.length) := by
  intro i hi j hj hij hsub
  rw [Finset.mem_range] at hi hj
  have hscope : ∀ {k} (hk : k < scopes.length), scopeSets scopes k = scopes[k].toFinset := by
    intro k hk
    rw [scopeSets, List.getD_eq_getElem?_getD, List.getElem?_eq_getElem hk, Option.getD_some]
  rw [hscope hi, hscope hj] at hsub
  rw [hscope hi, hscope hj]
  have hapart : Apart scopes[i] scopes[j] := by
    rcases Nat.lt_or_gt_of_ne hij with hlt | hlt
    · exact List.pairwise_iff_getElem.1 h i j hi hj hlt
    · exact (List.pairwise_iff_getElem.1 h j i hj hi hlt).symm
  have hlist : scopes[i] ⊆ scopes[j] := fun v hv =>
    List.mem_toFinset.1 (hsub (List.mem_toFinset.2 hv))
  obtain ⟨hnil, hne⟩ := hapart.1 hlist
  exact ⟨by simp [hnil], by simpa using hne⟩

namespace Cluster

/-- The names of a cluster's kept factor. -/
def keptNames (c : Cluster W L) : List String := c.keeper.names

/-- A factor starts a cluster only if no kept factor covers it. -/
theorem keptNames_absorb (cs : List (Cluster W L)) (f : Factor W L × ℕ) :
    (absorb cs f).map keptNames = cs.map keptNames ∨
      (absorb cs f).map keptNames = cs.map keptNames ++ [f.1.names] ∧
        ∀ s ∈ cs.map keptNames, ¬ f.1.names ⊆ s := by
  induction cs with
  | nil => exact Or.inr ⟨rfl, by simp⟩
  | cons c rest ih =>
    by_cases hc : covers c.keeper.names f.1.names = true
    · have habsorb : absorb (c :: rest) f
          = { c with absorbed := c.absorbed ++ [(f.2, f.1)] } :: rest := if_pos hc
      exact Or.inl (by rw [habsorb]; rfl)
    · have habsorb : absorb (c :: rest) f = c :: absorb rest f := if_neg hc
      have hout : ¬ f.1.names ⊆ keptNames c := fun hsub => hc (covers_iff.2 fun n hn => hsub hn)
      rw [habsorb, List.map_cons, List.map_cons]
      rcases ih with ih | ⟨ih, hall⟩
      · exact Or.inl (by rw [ih])
      · refine Or.inr ⟨by rw [ih, List.cons_append], fun s hs => ?_⟩
        rcases List.mem_cons.1 hs with rfl | hs
        · exact hout
        · exact hall s hs

/-- Factors that come from the largest to the smallest start clusters none of which covers another.
-/
theorem pairwise_foldl_absorb {es : List (Factor W L × ℕ)}
    (hes : es.Pairwise fun a b => b.1.names.length ≤ a.1.names.length) {cs : List (Cluster W L)}
    (hcs : (cs.map keptNames).Pairwise fun s t => ¬ s ⊆ t ∧ ¬ t ⊆ s)
    (hle : ∀ s ∈ cs.map keptNames, ∀ e ∈ es, e.1.names.length ≤ s.length)
    (hnodup : ∀ s ∈ cs.map keptNames, s.Nodup) :
    ((es.foldl absorb cs).map keptNames).Pairwise fun s t => ¬ s ⊆ t ∧ ¬ t ⊆ s := by
  induction es generalizing cs with
  | nil => exact hcs
  | cons e es ih =>
    obtain ⟨he, hes⟩ := List.pairwise_cons.1 hes
    have hrest : ∀ s ∈ cs.map keptNames, ∀ d ∈ es, d.1.names.length ≤ s.length :=
      fun s hs d hd => hle s hs d (List.mem_cons_of_mem e hd)
    rcases keptNames_absorb cs e with hsame | ⟨hnew, hout⟩
    · exact ih hes (by rwa [hsame]) (by rwa [hsame]) (by rwa [hsame])
    · refine ih hes ?_ ?_ ?_
      · rw [hnew]
        refine List.pairwise_append.2 ⟨hcs, List.pairwise_singleton _ _, fun s hs t ht => ?_⟩
        rw [List.mem_singleton.1 ht]
        -- A larger list inside a smaller one is a rearrangement of it.
        refine ⟨fun hsub => hout s hs ?_, hout s hs⟩
        have hperm := (hnodup s hs).subperm hsub |>.perm_of_length_le
          (hle s hs e List.mem_cons_self)
        exact fun n hn => hperm.mem_iff.2 hn
      · rw [hnew]
        intro s hs d hd
        rcases List.mem_append.1 hs with hs | hs
        · exact hrest s hs d hd
        · rw [List.mem_singleton.1 hs]
          exact he d hd
      · rw [hnew]
        intro s hs
        rcases List.mem_append.1 hs with hs | hs
        · exact hnodup s hs
        · rw [List.mem_singleton.1 hs]
          exact e.1.scope.distinct

/-- No kept factor covers another one. -/
theorem pairwise_ofFactors (fs : List (Factor W L)) :
    ((ofFactors fs).map keptNames).Pairwise fun s t => ¬ s ⊆ t ∧ ¬ t ⊆ s := by
  let longer : Factor W L × ℕ → Factor W L × ℕ → Bool := fun a b =>
    decide (b.1.names.length ≤ a.1.names.length)
  have hsorted : (arrange longer fs.zipIdx).Pairwise fun a b => longer a b = true :=
    arrange_pairwise (by simp only [longer, decide_eq_true_eq]; omega)
      (by simp only [longer, decide_eq_true_eq]; omega) fs.zipIdx
  simp only [longer, decide_eq_true_eq] at hsorted
  have hfold : (((arrange longer fs.zipIdx).foldl absorb []).map keptNames).Pairwise
      fun s t => ¬ s ⊆ t ∧ ¬ t ⊆ s :=
    pairwise_foldl_absorb hsorted List.Pairwise.nil (by simp) (by simp)
  exact ((arrange_perm _ _).map keptNames).symm.pairwise hfold fun h => ⟨h.2, h.1⟩

end Cluster

namespace FactorGraph

variable {g : FactorGraph W L} {factors : List (Factor W L)}

/-- The names of the minimal factors: those of the kept ones, and the variables that no factor
mentions. -/
def minimalNames (g : FactorGraph W L) : List (List String) :=
  (Cluster.ofFactors g.factors).map Cluster.keptNames
    ++ (g.freeNames.filter fun v => !g.mentions v).map fun v => [v]

theorem mem_minimalNames {s : List String} : s ∈ g.minimalNames ↔
    (∃ c ∈ Cluster.ofFactors g.factors, c.keptNames = s) ∨
      ∃ v ∈ g.freeNames, ¬ g.mentions v = true ∧ [v] = s := by
  simp [minimalNames, and_assoc]

variable [WeightScale W] [WeightScale L] [LogConversion W L]

/-- The minimal factors have these names. -/
theorem Sound.names_minimalFactors (hg : g.Sound) (h : g.minimalFactors = .ok factors) :
    factors.map Factor.names = g.minimalNames := by
  obtain ⟨value, hfactors, hvalue⟩ := hg.exists_minimalFactors
  cases hfactors.symm.trans h
  rw [List.map_append, List.map_map, List.map_map]
  refine congrArg₂ _ (List.map_congr_left fun c hc => ?_) rfl
  exact congrArg Scope.names (hvalue c hc).2

omit [WeightScale W] [WeightScale L] [LogConversion W L] in
/-- No minimal factor lies inside another one, unless just one of them has no variables. -/
theorem Sound.pairwise_apart (hg : g.Sound) : g.minimalNames.Pairwise Apart := by
  have hbare : (g.freeNames.filter fun v => !g.mentions v).Nodup :=
    (hg.keys_nodup.filter _).filter _
  refine List.pairwise_append.2 ⟨?_, ?_, fun s hs t ht => ?_⟩
  · exact (Cluster.pairwise_ofFactors g.factors).imp fun h =>
      ⟨fun hst => absurd hst h.1, fun hts => absurd hts h.2⟩
  · refine List.pairwise_map.2 (hbare.imp fun hvw => ⟨fun hsub => ?_, fun hsub => ?_⟩)
    · exact absurd (List.mem_singleton.1 (hsub (List.mem_singleton_self _))) hvw
    · exact absurd (List.mem_singleton.1 (hsub (List.mem_singleton_self _))).symm hvw
  · obtain ⟨c, hc, rfl⟩ := List.mem_map.1 hs
    obtain ⟨v, hv, rfl⟩ := List.mem_map.1 ht
    have hkeeper : c.keeper ∈ g.factors := mem_factors_of_mem_members hc List.mem_cons_self
    have hout : v ∉ c.keptNames := fun hin => by
      have hmentions := mentions_iff.2 ⟨c.keeper, hkeeper, hin⟩
      simp [hmentions] at hv
    refine ⟨fun hsub => ⟨List.eq_nil_iff_forall_not_mem.2 fun n hn => ?_, List.cons_ne_nil v []⟩,
      fun hsub => absurd (hsub (List.mem_singleton_self v)) hout⟩
    exact hout (List.mem_singleton.1 (hsub hn) ▸ hn)

/-- If a variable is free, then there are minimal factors. -/
theorem Sound.exists_minimalFactors_ne_nil (hg : g.Sound) (hfree : g.freeNames ≠ []) :
    ∃ fs, g.minimalFactors = .ok fs ∧ fs ≠ [] := by
  obtain ⟨fs, hfs, -, hcover⟩ := hg.minimalFactors_within
  obtain ⟨n, hn⟩ := List.exists_mem_of_ne_nil _ hfree
  obtain ⟨f, hf, -⟩ := hcover n hn
  exact ⟨fs, hfs, List.ne_nil_of_mem hf⟩

end FactorGraph

/-- Whether a fault says that a graph has no clique tree. -/
def Fault.isConstruction : Fault → Bool
  | .noFactors _ | .needsFillIn _ _ | .badHint _ _ => true
  | _ => false

namespace CliqueTree

variable [WeightScale W] [WeightScale L] [LogConversion W L] {g : FactorGraph W L}
  {factors : List (Factor W L)} {useHint : Bool}

/-- If no schedule can be refused, a graph has a tree as soon as its minimal factors can be
eliminated. -/
theorem exists_ofGraph (hhint : useHint = true → g.hint = none)
    (hfactors : g.minimalFactors = .ok factors) (hne : factors ≠ []) {done : Elimination}
    (hdone : Eliminated g factors done) : ∃ t, (ofGraph useHint g).answer = .ok t := by
  obtain ⟨t, ht, -⟩ := Joined.exists_ofEdges
    ((done.order ++ done.remaining).map Int.ofNat) hdone.lt_length
  exact ⟨t, ofGraph_eq_ok_iff.2 ⟨factors, done, _, hfactors, hne, hdone,
    scheduleFor_of_no_hint hhint _, ht⟩⟩

/-- The minimal factors of a graph that has a tree can be reduced. -/
theorem reducible_of_ofGraph (hg : g.Sound) {t : CliqueTree W L}
    (h : (ofGraph useHint g).answer = .ok t) :
    Reducible (scopeSets g.minimalNames) (Finset.range g.minimalNames.length) := by
  obtain ⟨factors, done, order, hmade⟩ := exists_madeBy h
  have hforest := hmade.isJoinForest
  rw [← hg.names_minimalFactors hmade.minimal, List.length_map, ← hmade.size_eq,
    ← hmade.scopeOf_eq]
  exact hforest.reducible

/-- An elimination that is stuck is reported with the remaining cliques. -/
theorem ofGraph_of_stuck (hfactors : g.minimalFactors = .ok factors) (hne : factors ≠ [])
    {stuck : Elimination} (hstuck : (Elimination.start (factors.map Factor.names)
      (factors.map Factor.size)).run (rankIn g.freeNames) = .error stuck) :
    (ofGraph useHint g).answer
      = .error (.needsFillIn g.outline (stuck.remaining.map stuck.scopeOf)) := by
  rw [ofGraph, Traced.answer_bind, Traced.answer_ofExcept, hfactors]
  change (if factors.isEmpty = true then _ else _ : Traced (CliqueTree W L)).answer = _
  rw [if_neg fun he => hne (List.isEmpty_iff.1 he)]
  simp only [hstuck]
  rfl

/-- Without a hint, a tree can only be missing because some cliques remain. -/
theorem needsFillIn_of_ofGraph (hhint : useHint = true → g.hint = none)
    (hfactors : g.minimalFactors = .ok factors) (hne : factors ≠ []) {fault : Fault}
    (h : (ofGraph useHint g).answer = .error fault) :
    ∃ remaining, fault = .needsFillIn g.outline remaining := by
  cases hrun : (Elimination.start (factors.map Factor.names) (factors.map Factor.size)).run
      (rankIn g.freeNames) with
  | ok done =>
    obtain ⟨t, ht⟩ := exists_ofGraph hhint hfactors hne hrun
    cases h.symm.trans ht
  | error stuck =>
    cases h.symm.trans (ofGraph_of_stuck hfactors hne hrun)
    exact ⟨_, rfl⟩

/-- A schedule can only be refused because it is no permutation of the cliques. -/
theorem isConstruction_of_scheduleFor {hint : Option (List Int)} {found : List ℕ} {fault : Fault}
    (h : scheduleFor useHint hint found = .error fault) : fault.isConstruction = true := by
  unfold scheduleFor orderOfHint at h
  split at h
  · split at h
    · cases h
    · cases h
      rfl
  · cases h

/-- A schedule that does not fit is reported. -/
theorem ofGraph_of_refused (hfactors : g.minimalFactors = .ok factors) (hne : factors ≠ [])
    {done : Elimination} (hdone : Eliminated g factors done) {fault : Fault}
    (hrefused : scheduleFor useHint g.hint (done.order ++ done.remaining) = .error fault) :
    (ofGraph useHint g).answer = .error fault := by
  rw [ofGraph, Traced.answer_bind, Traced.answer_ofExcept, hfactors]
  change (if factors.isEmpty = true then _ else _ : Traced (CliqueTree W L)).answer = _
  rw [if_neg fun he => hne (List.isEmpty_iff.1 he)]
  rw [Eliminated] at hdone
  simp only [hdone, hrefused]
  rfl

/-- A graph with a free variable can only be refused because it has no tree, or because its schedule
does not fit the tree. -/
theorem isConstruction_of_ofGraph (hg : g.Sound) (hfree : g.freeNames ≠ []) {fault : Fault}
    (h : (ofGraph useHint g).answer = .error fault) : fault.isConstruction = true := by
  obtain ⟨factors, hfactors, hne⟩ := hg.exists_minimalFactors_ne_nil hfree
  cases hrun : (Elimination.start (factors.map Factor.names) (factors.map Factor.size)).run
      (rankIn g.freeNames) with
  | error stuck =>
    cases h.symm.trans (ofGraph_of_stuck hfactors hne hrun)
    rfl
  | ok done =>
    cases hschedule : scheduleFor useHint g.hint (done.order ++ done.remaining) with
    | error refusal =>
      cases h.symm.trans (ofGraph_of_refused hfactors hne hrun hschedule)
      exact isConstruction_of_scheduleFor hschedule
    | ok order =>
      obtain ⟨t, ht, -⟩ := Joined.exists_ofEdges (order.map Int.ofNat) (Eliminated.lt_length hrun)
      cases h.symm.trans (ofGraph_eq_ok_iff.2 ⟨factors, done, order, hfactors, hne, hrun,
        hschedule, ht⟩)

/-- Without a hint, a graph has a tree exactly if there is a join forest of its minimal factors, of
which there is at least one; otherwise the remaining cliques are reported. -/
theorem exists_tree_iff (hg : FactorGraph.Reachable g) (hhint : useHint = true → g.hint = none)
    (hfactors : g.minimalFactors = .ok factors) (hne : factors ≠ []) :
    ((∃ t, (ofGraph useHint g).answer = .ok t) ↔
      ∃ G, IsJoinForest factors.length G (scopeSets (factors.map Factor.names))) ∧
    ∀ fault, (ofGraph useHint g).answer = .error fault →
      ∃ remaining, fault = .needsFillIn g.outline remaining := by
  have hlength : (factors.map Factor.names).length = factors.length := List.length_map ..
  have hinc := incomparable_of_pairwise hg.sound.pairwise_apart
  rw [← hg.sound.names_minimalFactors hfactors] at hinc
  refine ⟨⟨?_, ?_⟩, fun fault hfault => ?_⟩
  · rintro ⟨t, ht⟩
    obtain ⟨fs, done, order, hmade⟩ := exists_madeBy ht
    cases hfactors.symm.trans hmade.minimal
    have hforest := hmade.isJoinForest
    rw [hmade.size_eq, hmade.scopeOf_eq] at hforest
    exact ⟨t.graph, hforest⟩
  · rintro ⟨G, hforest⟩
    rw [← hlength] at hforest
    obtain ⟨done, hdone⟩ := Elimination.exists_run (rankIn g.freeNames)
      (nodup_names factors) (by simpa using hne) (factors.map Factor.size) hforest.reducible hinc
    exact exists_ofGraph hhint hfactors hne hdone
  · exact needsFillIn_of_ofGraph hhint hfactors hne hfault

/-- The graph of three components has a tree, so its minimal factors have a join forest. -/
theorem exists_joinForest_islands :
    ∃ g factors G, Engine.islands = .ok g ∧ g.minimalFactors = .ok factors ∧
      IsJoinForest factors.length G (scopeSets (factors.map Factor.names)) := by
  have hok : (Engine.islands >>= fun g => (ofGraph false g).answer).toBool = true := by
    decide +kernel
  obtain ⟨t, hrun⟩ := exists_of_toBool hok
  obtain ⟨g, hg, ht⟩ := bind_eq_ok_iff.1 hrun
  obtain ⟨factors, -, -, hfactors, hne, -⟩ := ofGraph_eq_ok_iff.1 ht
  obtain ⟨hiff, -⟩ := exists_tree_iff (Engine.reachable_of_islands hg)
    (fun h : false = true => by cases h) hfactors hne
  obtain ⟨G, hforest⟩ := hiff.1 ⟨t, ht⟩
  exact ⟨g, factors, G, hg, hfactors, hforest⟩

end CliqueTree

end ExactInference
