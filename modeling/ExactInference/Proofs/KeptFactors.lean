import ExactInference.Proofs.ExactMarginals
import ExactInference.Proofs.FillIn

/-!
# What the minimal factors stand for

Every place of a factor goes to one minimal factor: to its representative, or to those that it
absorbed. The kept factors come in the order of their representatives, none inside another one, and
before the uniform factors. A kept factor weighs a state as the factors of its share do together, so
nothing of the joint weight is lost or counted twice.
-/

namespace ExactInference

/-- The places of the factors that one kept factor stands for. -/
structure Share where
  /-- The place of the factor whose axes are kept. -/
  representative : ℕ
  /-- The places of the factors that were absorbed. -/
  absorbed : List ℕ

/-- All places of a share, the representative first. -/
def Share.places (s : Share) : List ℕ := s.representative :: s.absorbed

variable {W L : Type}

namespace Cluster

/-- The places of the factors of a cluster. -/
def share (c : Cluster W L) : Share := ⟨c.place, c.absorbed.map Prod.fst⟩

theorem map_snd_entries (c : Cluster W L) : c.entries.map Prod.snd = c.share.places := by
  simp [entries, share, Share.places]

/-- Every place goes to one cluster. -/
theorem places_ofFactors_perm (fs : List (Factor W L)) :
    ((ofFactors fs).flatMap fun c => c.share.places).Perm (List.range fs.length) := by
  have hplaced := (entries_ofFactors_perm fs).map Prod.snd
  rw [List.map_flatMap, List.zipIdx_map_snd, ← List.range_eq_range'] at hplaced
  simpa only [map_snd_entries] using hplaced

/-- A cluster holds the factors that stand at its places. -/
theorem getElem?_places {fs : List (Factor W L)} {c : Cluster W L} (hc : c ∈ ofFactors fs) :
    c.share.places.map (fs[·]?) = c.members.map some := by
  rw [← map_snd_entries, ← map_fst_entries, List.map_map, List.map_map]
  refine List.map_congr_left fun e he => ?_
  exact List.mk_mem_zipIdx_iff_getElem?.1
    ((entries_ofFactors_perm fs).mem_iff.1 (List.mem_flatMap.2 ⟨c, hc, he⟩))

/-- The clusters come in the order of their representatives. -/
theorem ascending_ofFactors (fs : List (Factor W L)) :
    (ofFactors fs).Pairwise fun c d => c.place < d.place := by
  have hsorted : (ofFactors fs).Pairwise fun c d => decide (c.place ≤ d.place) = true :=
    arrange_pairwise (by simp only [decide_eq_true_eq]; omega)
      (by simp only [decide_eq_true_eq]; omega) _
  have hnodup := (places_ofFactors_perm fs).nodup_iff.2 List.nodup_range
  refine (hsorted.and (List.nodup_flatMap.1 hnodup).2).imp fun {c d} h => ?_
  have hle : c.place ≤ d.place := of_decide_eq_true h.1
  have hne : c.place ≠ d.place := fun he =>
    h.2 (List.mem_cons_self (a := c.place)) (by rw [he]; exact List.mem_cons_self)
  omega

end Cluster

variable [Semifield W] [LinearOrder W] [WeightScale W] [WeightScale L] [LogConversion W L]
  [ExactScale W] [ExactLog W L]

namespace FactorGraph

/-- A factor that can replace the factors at the places of a share. -/
structure StandsFor (fs : List (Factor W L)) (axes : List Axis) (s : Share) (kept : Factor W L) :
    Prop where
  /-- It has the axes of the representative. -/
  scope_eq : ∃ r, fs[s.representative]? = some r ∧ kept.scope = r.scope
  /-- It covers the factors of the share, and weighs a state as all of them together. -/
  exists_members : ∃ es : List (Factor W L), s.places.map (fs[·]?) = es.map some ∧
    (∀ e ∈ es, ∀ n ∈ e.names, n ∈ kept.names) ∧
    ∀ x, InRange axes x → kept.weightAt x = (es.map (Factor.weightAt · x)).prod

/-- Factors that carry the model of a graph without a redundant scope. -/
structure Condensed (g : FactorGraph W L) (fs : List (Factor W L)) : Prop where
  /-- Their product is the joint weight. -/
  productAt_eq : ∀ x, InRange g.freeAxes x → productAt fs x = g.jointWeightAt x
  /-- Their variables are the free ones. -/
  mem_names_iff : ∀ n, (∃ f ∈ fs, n ∈ f.names) ↔ n ∈ g.freeNames
  /-- Every place goes to one share. The kept factors stand for the shares in the order of their
  representatives, none inside another one; uniform factors follow for the variables that no factor
  of the graph mentions. -/
  exists_shares : ∃ shares kept,
    fs = kept ++ (g.freeNames.filter fun v => ∀ f ∈ g.factors, v ∉ f.names).map (fun v =>
      Factor.uniformOver v (g.stateCountOf v)) ∧
    List.Forall₂ (StandsFor g.factors g.freeAxes) shares kept ∧
    (shares.flatMap Share.places).Perm (List.range g.factors.length) ∧
    shares.Pairwise (fun s t => s.representative < t.representative) ∧
    kept.Pairwise fun f h => ¬ f.names ⊆ h.names ∧ ¬ h.names ⊆ f.names

variable {g : FactorGraph W L}

/-- A merged cluster stands for the factors at its places. -/
theorem Sound.standsFor_merged (hg : g.Sound) {c : Cluster W L}
    (hc : c ∈ Cluster.ofFactors g.factors) {kept : Factor W L} (hkept : c.merged = .ok kept)
    (hscope : kept.scope = c.keeper.scope) : StandsFor g.factors g.freeAxes c.share kept := by
  have hplaces := Cluster.getElem?_places hc
  have hcovered := (Cluster.ofFactors_spec g.factors).2 c hc
  refine ⟨⟨c.keeper, (List.cons_eq_cons.1 hplaces).1, hscope⟩, c.members, hplaces, ?_, ?_⟩
  · intro e he n hn
    rw [Factor.names, hscope]
    rcases List.mem_cons.1 he with rfl | he
    · exact hn
    · obtain ⟨d, hd, rfl⟩ := List.mem_map.1 he
      exact hcovered d hd n hn
  · exact fun x hx => Cluster.weightAt_merged hg.freeNames_nodup hcovered
      (fun f hf => hg.within f (mem_factors_of_mem_members hc hf)) hkept hx

omit [Semifield W] [LinearOrder W] [ExactScale W] [ExactLog W L] [WeightScale W] [WeightScale L]
  [LogConversion W L] in
/-- The uniform factors are those of the variables that no factor mentions. -/
theorem bare_eq (g : FactorGraph W L) : (g.freeNames.filter fun v => !g.mentions v)
    = g.freeNames.filter fun v => ∀ f ∈ g.factors, v ∉ f.names := by
  refine List.filter_congr fun v _ => ?_
  rw [Bool.eq_iff_iff, Bool.not_eq_true', decide_eq_true_iff, ← Bool.not_eq_true, mentions_iff]
  constructor
  · exact fun h f hf hn => h ⟨f, hf, hn⟩
  · exact fun h ⟨f, hf, hn⟩ => h f hf hn

omit [Semifield W] [LinearOrder W] [WeightScale W] [WeightScale L] [LogConversion W L]
  [ExactScale W] [ExactLog W L] in
/-- No kept factor lies inside another one. -/
theorem pairwise_kept {value : Cluster W L → Factor W L}
    (hvalue : ∀ c ∈ Cluster.ofFactors g.factors, (value c).scope = c.keeper.scope) :
    ((Cluster.ofFactors g.factors).map value).Pairwise fun f h =>
      ¬ f.names ⊆ h.names ∧ ¬ h.names ⊆ f.names := by
  have hnames : ∀ c ∈ Cluster.ofFactors g.factors, (value c).names = c.keptNames :=
    fun c hc => congrArg Scope.names (hvalue c hc)
  have hapart := List.pairwise_map.1 (Cluster.pairwise_ofFactors g.factors)
  refine List.pairwise_map.2 (hapart.imp_of_mem fun {c d} hc hd h => ?_)
  rw [hnames c hc, hnames d hd]
  exact h

/-- The minimal factors exist and carry the model of the graph without a redundant scope. -/
theorem exists_condensed (hg : FactorGraph.Reachable g) :
    ∃ fs, g.minimalFactors = .ok fs ∧ Condensed g fs := by
  have hsound := hg.sound
  obtain ⟨fs, hfs, hwithin, hcover, hproduct⟩ := hsound.minimalFactors_spec
  obtain ⟨value, hfactors, hvalue⟩ := hsound.exists_minimalFactors
  cases hfs.symm.trans hfactors
  refine ⟨_, hfs, ?_⟩
  constructor
  case productAt_eq =>
    intro x hx
    rw [Factor.productAt_eq_prod]
    exact hproduct x hx
  case mem_names_iff =>
    intro n
    refine ⟨fun ⟨f, hf, hn⟩ => ?_, hcover n⟩
    obtain ⟨a, ha, rfl⟩ := List.mem_map.1 hn
    exact (mem_freeAxes.1 (hwithin f hf a ha)).1
  case exists_shares =>
    refine ⟨(Cluster.ofFactors g.factors).map Cluster.share,
      (Cluster.ofFactors g.factors).map value, by rw [bare_eq], ?_, ?_, ?_, ?_⟩
    · rw [List.forall₂_map_left_iff, List.forall₂_map_right_iff, List.forall₂_same]
      exact fun c hc => hsound.standsFor_merged hc (hvalue c hc).1 (hvalue c hc).2
    · rw [List.flatMap_map]
      exact Cluster.places_ofFactors_perm g.factors
    · exact List.pairwise_map.2 (Cluster.ascending_ofFactors g.factors)
    · exact pairwise_kept fun c hc => (hvalue c hc).2

end FactorGraph

/-- A graph of three components is condensed. -/
theorem exists_condensed_islands : ∃ g fs, Engine.islands = .ok g ∧
    g.minimalFactors = .ok fs ∧ FactorGraph.Condensed g fs := by
  obtain ⟨g, hg⟩ := exists_of_toBool (show Engine.islands.toBool = true by decide +kernel)
  obtain ⟨fs, hfs, hcondensed⟩ := FactorGraph.exists_condensed (Engine.reachable_of_islands hg)
  exact ⟨g, fs, hg, hfs, hcondensed⟩

end ExactInference
