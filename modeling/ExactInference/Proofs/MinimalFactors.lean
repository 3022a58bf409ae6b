import ExactInference.Proofs.ReachableGraphs

/-!
# Minimal factors carry the joint weight

Merging what another factor covers is always possible, since no table grows. The merged factors
together with the uniform ones cover every free variable, and their product is the joint weight of
the graph.
-/

namespace ExactInference

variable {W L : Type}

theorem covers_iff {large small : List String} :
    covers large small = true ↔ ∀ n ∈ small, n ∈ large := by
  simp [covers, List.all_eq_true]

namespace Cluster

/-- The factors of a cluster with their places, the kept one first. -/
def entries (c : Cluster W L) : List (Factor W L × ℕ) :=
  (c.keeper, c.place) :: c.absorbed.map Prod.swap

/-- The factors of a cluster, the kept one first. -/
def members (c : Cluster W L) : List (Factor W L) := c.keeper :: c.absorbed.map Prod.snd

theorem map_fst_entries (c : Cluster W L) : c.entries.map Prod.fst = c.members := by
  simp [entries, members]

/-- Every absorbed factor is covered by the kept one. -/
def Covered (c : Cluster W L) : Prop := ∀ e ∈ c.absorbed, ∀ n ∈ e.2.names, n ∈ c.keeper.names

/-- A factor goes into one cluster. -/
theorem entries_absorb_perm (cs : List (Cluster W L)) (f : Factor W L × ℕ) :
    ((absorb cs f).flatMap entries).Perm (f :: cs.flatMap entries) := by
  induction cs with
  | nil => simp [absorb, entries]
  | cons c rest ih =>
    by_cases hc : covers c.keeper.names f.1.names = true
    · have habsorb : absorb (c :: rest) f
          = { c with absorbed := c.absorbed ++ [(f.2, f.1)] } :: rest := if_pos hc
      rw [habsorb]
      simp only [List.flatMap_cons, entries, List.map_append, List.map_cons, List.map_nil,
        List.cons_append, List.append_assoc, List.nil_append]
      exact (List.Perm.cons _ List.perm_middle).trans (List.Perm.swap ..)
    · have habsorb : absorb (c :: rest) f = c :: absorb rest f := if_neg hc
      rw [habsorb, List.flatMap_cons, List.flatMap_cons]
      exact (ih.append_left _).trans List.perm_middle

/-- A factor is covered where it goes. -/
theorem covered_absorb {cs : List (Cluster W L)} (f : Factor W L × ℕ) (h : ∀ c ∈ cs, c.Covered) :
    ∀ c ∈ absorb cs f, c.Covered := by
  induction cs with
  | nil =>
    intro c hc e he
    rw [List.mem_singleton.1 hc] at he
    simp at he
  | cons c rest ih =>
    have hrest := ih fun d hd => h d (List.mem_cons_of_mem c hd)
    intro d hd
    by_cases hc : covers c.keeper.names f.1.names = true
    · have habsorb : absorb (c :: rest) f
          = { c with absorbed := c.absorbed ++ [(f.2, f.1)] } :: rest := if_pos hc
      rw [habsorb] at hd
      rcases List.mem_cons.1 hd with rfl | hd
      · intro e he
        rcases List.mem_append.1 he with he | he
        · exact h c List.mem_cons_self e he
        · rw [List.mem_singleton.1 he]
          exact covers_iff.1 hc
      · exact h d (List.mem_cons_of_mem c hd)
    · have habsorb : absorb (c :: rest) f = c :: absorb rest f := if_neg hc
      rw [habsorb] at hd
      rcases List.mem_cons.1 hd with rfl | hd
      · exact h d List.mem_cons_self
      · exact hrest d hd

theorem entries_foldl_absorb_perm (es : List (Factor W L × ℕ)) (cs : List (Cluster W L)) :
    ((es.foldl absorb cs).flatMap entries).Perm (es ++ cs.flatMap entries) := by
  induction es generalizing cs with
  | nil => exact List.Perm.refl _
  | cons f es ih =>
    exact (ih _).trans (((entries_absorb_perm cs f).append_left es).trans List.perm_middle)

theorem covered_foldl_absorb (es : List (Factor W L × ℕ)) {cs : List (Cluster W L)}
    (h : ∀ c ∈ cs, c.Covered) : ∀ c ∈ es.foldl absorb cs, c.Covered := by
  induction es generalizing cs with
  | nil => exact h
  | cons f es ih => exact ih (covered_absorb f h)

/-- The clusters hold every factor with its place. -/
theorem entries_ofFactors_perm (fs : List (Factor W L)) :
    ((ofFactors fs).flatMap entries).Perm fs.zipIdx := by
  have hfold := entries_foldl_absorb_perm (arrange
    (fun a b => decide (b.1.names.length ≤ a.1.names.length)) fs.zipIdx) []
  rw [List.flatMap_nil, List.append_nil] at hfold
  exact ((arrange_perm _ _).flatMap_right _).trans (hfold.trans (arrange_perm _ fs.zipIdx))

/-- The clusters divide the factors up, and each covers its own. -/
theorem ofFactors_spec (fs : List (Factor W L)) :
    ((ofFactors fs).flatMap members).Perm fs ∧ ∀ c ∈ ofFactors fs, c.Covered := by
  constructor
  · have hplaced := (entries_ofFactors_perm fs).map Prod.fst
    rw [List.map_flatMap, List.zipIdx_map_fst] at hplaced
    simpa only [map_fst_entries] using hplaced
  · intro c hc
    rw [ofFactors, mem_arrange] at hc
    exact covered_foldl_absorb _ (by simp) c hc

variable {axes : List Axis} {c : Cluster W L}

/-- The absorbed factors, in the order in which they are merged. -/
def inOrder (c : Cluster W L) : List (Factor W L) :=
  (arrange (fun a b => decide (a.1 ≤ b.1)) c.absorbed).map Prod.snd

theorem inOrder_perm (c : Cluster W L) : c.inOrder.Perm (c.absorbed.map Prod.snd) :=
  (arrange_perm _ _).map Prod.snd

theorem Covered.names_of_mem_inOrder (hc : c.Covered) {f : Factor W L} (hf : f ∈ c.inOrder) :
    ∀ n ∈ f.names, n ∈ c.keeper.names := by
  obtain ⟨e, he, rfl⟩ := List.mem_map.1 (c.inOrder_perm.mem_iff.1 hf)
  exact hc e he

theorem mem_members_of_mem_inOrder {f : Factor W L} (hf : f ∈ c.inOrder) : f ∈ c.members :=
  List.mem_cons_of_mem _ (c.inOrder_perm.mem_iff.1 hf)

variable [WeightScale W] [WeightScale L] [LogConversion W L]

/-- Merging a cluster keeps the axes of the kept factor. -/
theorem exists_merged (hd : (axes.map Axis.name).Nodup) (hc : c.Covered)
    (hwithin : ∀ f ∈ c.members, f.scope.Within axes) :
    ∃ m, c.merged = .ok m ∧ m.scope = c.keeper.scope :=
  Factor.exists_productAll hd (hwithin c.keeper List.mem_cons_self) c.inOrder
    (fun _ hf => hwithin _ (mem_members_of_mem_inOrder hf))
    fun _ hf => hc.names_of_mem_inOrder hf

variable [Semifield W] [LinearOrder W] [ExactScale W] [ExactLog W L]

/-- Merging a cluster multiplies all weights. -/
theorem weightAt_merged (hd : (axes.map Axis.name).Nodup) (hc : c.Covered)
    (hwithin : ∀ f ∈ c.members, f.scope.Within axes) {m : Factor W L} (hm : c.merged = .ok m)
    {x : JointState} (hx : InRange axes x) :
    m.weightAt x = (c.members.map (Factor.weightAt · x)).prod := by
  have hkeeper := hwithin c.keeper List.mem_cons_self
  rw [Factor.weightAt_productAll hd hkeeper
      (fun _ hf => hwithin _ (mem_members_of_mem_inOrder hf))
      (fun _ hf => hc.names_of_mem_inOrder hf) hm (hkeeper.inRange hx), members,
    List.map_cons, List.prod_cons, (c.inOrder_perm.map (Factor.weightAt · x)).prod_eq]

end Cluster

namespace FactorGraph

variable {g : FactorGraph W L}

theorem mentions_iff {n : String} : g.mentions n = true ↔ ∃ f ∈ g.factors, n ∈ f.names := by
  simp [mentions, List.any_eq_true]

/-- The factors of a cluster are factors of the graph. -/
theorem mem_factors_of_mem_members {c : Cluster W L} (hc : c ∈ Cluster.ofFactors g.factors)
    {f : Factor W L} (hf : f ∈ c.members) : f ∈ g.factors :=
  (Cluster.ofFactors_spec g.factors).1.mem_iff.1 (List.mem_flatMap.2 ⟨c, hc, hf⟩)

/-- Every factor of a graph is covered by a kept one. -/
theorem exists_keeper {f : Factor W L} (hf : f ∈ g.factors) :
    ∃ c ∈ Cluster.ofFactors g.factors, ∀ n ∈ f.names, n ∈ c.keeper.names := by
  obtain ⟨hperm, hcovered⟩ := Cluster.ofFactors_spec g.factors
  obtain ⟨c, hc, hfc⟩ := List.mem_flatMap.1 (hperm.mem_iff.2 hf)
  refine ⟨c, hc, fun n hn => ?_⟩
  rcases List.mem_cons.1 hfc with rfl | hfc
  · exact hn
  · obtain ⟨e, he, rfl⟩ := List.mem_map.1 hfc
    exact hcovered c hc e he n hn

variable [WeightScale W] [WeightScale L] [LogConversion W L]

/-- Every cluster is multiplied out, and keeps the axes of the kept factor. -/
theorem Sound.exists_mapM_merged (hg : g.Sound) :
    ∃ value : Cluster W L → Factor W L, (Cluster.ofFactors g.factors).mapM Cluster.merged
        = .ok ((Cluster.ofFactors g.factors).map value) ∧
      ∀ c ∈ Cluster.ofFactors g.factors, c.merged = .ok (value c) ∧
        (value c).scope = c.keeper.scope := by
  have hmerged : ∀ c ∈ Cluster.ofFactors g.factors,
      ∃ m, c.merged = .ok m ∧ m.scope = c.keeper.scope := fun c hc =>
    Cluster.exists_merged hg.freeNames_nodup ((Cluster.ofFactors_spec g.factors).2 c hc)
      fun f hf => hg.within f (mem_factors_of_mem_members hc hf)
  let value : Cluster W L → Factor W L := fun c => (c.merged.toOption).getD c.keeper
  have hvalue : ∀ c ∈ Cluster.ofFactors g.factors, c.merged = .ok (value c) ∧
      (value c).scope = c.keeper.scope := by
    intro c hc
    obtain ⟨m, hm, hscope⟩ := hmerged c hc
    have he : value c = m := by simp [value, hm, Except.toOption]
    rw [he]
    exact ⟨hm, hscope⟩
  exact ⟨value, mapM_eq_ok fun c hc => (hvalue c hc).1, hvalue⟩

/-- The minimal factors are the merged clusters, and a uniform factor for every variable that no
factor mentions. -/
theorem Sound.exists_minimalFactors (hg : g.Sound) :
    ∃ value : Cluster W L → Factor W L,
      g.minimalFactors = .ok ((Cluster.ofFactors g.factors).map value
        ++ (g.freeNames.filter fun v => !g.mentions v).map fun v =>
          Factor.uniformOver v (g.stateCountOf v)) ∧
      ∀ c ∈ Cluster.ofFactors g.factors, c.merged = .ok (value c) ∧
        (value c).scope = c.keeper.scope := by
  obtain ⟨value, hmerged, hvalue⟩ := hg.exists_mapM_merged
  refine ⟨value, ?_, hvalue⟩
  rw [minimalFactors, hmerged]
  rfl

/-- The minimal factors take their axes from the free variables and cover all of them. -/
theorem Sound.minimalFactors_within (hg : g.Sound) :
    ∃ fs, g.minimalFactors = .ok fs ∧ (∀ f ∈ fs, f.scope.Within g.freeAxes) ∧
      ∀ n ∈ g.freeNames, ∃ f ∈ fs, n ∈ f.names := by
  obtain ⟨value, hfactors, hvalue⟩ := hg.exists_minimalFactors
  refine ⟨_, hfactors, fun f hf => ?_, fun n hn => ?_⟩
  · rcases List.mem_append.1 hf with hf | hf
    · obtain ⟨c, hc, rfl⟩ := List.mem_map.1 hf
      rw [(hvalue c hc).2]
      exact hg.within _ (mem_factors_of_mem_members hc List.mem_cons_self)
    · obtain ⟨n, hn, rfl⟩ := List.mem_map.1 hf
      intro a ha
      rw [List.mem_singleton.1 (show a ∈ [(⟨n, g.stateCountOf n⟩ : Axis)] from ha)]
      exact mem_freeAxes.2 ⟨(List.mem_filter.1 hn).1, rfl⟩
  · by_cases hm : g.mentions n = true
    · obtain ⟨f, hf, hnf⟩ := mentions_iff.1 hm
      obtain ⟨c, hc, hcovers⟩ := exists_keeper hf
      refine ⟨value c, List.mem_append_left _ (List.mem_map_of_mem hc), ?_⟩
      rw [Factor.names, (hvalue c hc).2]
      exact hcovers n hnf
    · have hin : n ∈ g.freeNames.filter fun v => !g.mentions v :=
        List.mem_filter.2 ⟨hn, by simpa using hm⟩
      exact ⟨_, List.mem_append_right _ (List.mem_map_of_mem hin), List.mem_singleton_self n⟩

variable [Semifield W] [LinearOrder W] [ExactScale W]

/-- A uniform factor over a free variable weighs every state alike. -/
theorem weightAt_uniformOver {n : String} {x : JointState} (hx : x n < g.stateCountOf n) :
    (Factor.uniformOver n (g.stateCountOf n) : Factor W L).weightAt x = 1 := by
  have hrange : InRange [(⟨n, g.stateCountOf n⟩ : Axis)] x := fun a ha => by
    rw [List.mem_singleton.1 ha]
    exact hx
  exact (Table.weightAt_ofFn (s := ⟨[⟨n, g.stateCountOf n⟩], by simp⟩) hrange fun _ _ => rfl).trans
    ExactScale.one_eq

/-- Uniform factors over free variables do not change a product. -/
theorem prod_uniformOver {ns : List String} (hns : ∀ n ∈ ns, n ∈ g.freeNames) {x : JointState}
    (hx : InRange g.freeAxes x) :
    ((ns.map fun v => (Factor.uniformOver v (g.stateCountOf v) : Factor W L)).map
      (Factor.weightAt · x)).prod = 1 := by
  refine List.prod_eq_one fun w hw => ?_
  rw [List.map_map] at hw
  obtain ⟨n, hn, rfl⟩ := List.mem_map.1 hw
  exact weightAt_uniformOver (hx ⟨n, g.stateCountOf n⟩ (mem_freeAxes.2 ⟨hns n hn, rfl⟩))

variable [ExactLog W L]

/-- The merged clusters multiply to the joint weight. -/
theorem Sound.prod_merged (hg : g.Sound) {value : Cluster W L → Factor W L}
    (hvalue : ∀ c ∈ Cluster.ofFactors g.factors, c.merged = .ok (value c)) {x : JointState}
    (hx : InRange g.freeAxes x) :
    (((Cluster.ofFactors g.factors).map value).map (Factor.weightAt · x)).prod
      = g.jointWeightAt x := by
  obtain ⟨hperm, hcovered⟩ := Cluster.ofFactors_spec g.factors
  rw [List.map_map, jointWeightAt, Factor.productAt_eq_prod,
    ← (hperm.map (Factor.weightAt · x)).prod_eq, List.map_flatMap, List.flatMap_def,
    List.prod_flatten, List.map_map]
  congr 1
  exact List.map_congr_left fun c hc => Cluster.weightAt_merged hg.freeNames_nodup (hcovered c hc)
    (fun f hf => hg.within f (mem_factors_of_mem_members hc hf)) (hvalue c hc) hx

/-- The minimal factors exist, take their axes from the free variables, cover all of them, and
multiply to the joint weight. -/
theorem Sound.minimalFactors_spec (hg : g.Sound) :
    ∃ fs, g.minimalFactors = .ok fs ∧ (∀ f ∈ fs, f.scope.Within g.freeAxes) ∧
      (∀ n ∈ g.freeNames, ∃ f ∈ fs, n ∈ f.names) ∧
      ∀ x, InRange g.freeAxes x → (fs.map (Factor.weightAt · x)).prod = g.jointWeightAt x := by
  obtain ⟨fs, hfs, hwithin, hcover⟩ := hg.minimalFactors_within
  obtain ⟨value, hfactors, hvalue⟩ := hg.exists_minimalFactors
  cases hfs.symm.trans hfactors
  refine ⟨_, hfs, hwithin, hcover, fun x hx => ?_⟩
  rw [List.map_append, List.prod_append, hg.prod_merged (fun c hc => (hvalue c hc).1) hx,
    prod_uniformOver (fun n hn => (List.mem_filter.1 hn).1) hx, mul_one]

end FactorGraph

end ExactInference
