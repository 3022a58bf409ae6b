import ExactInference.Proofs.ExactWeights
import ExactInference.Proofs.GrowingGraphs
import ExactInference.Proofs.LinkedGraphs

/-!
# Families of graphs at every size

In a chain and in a balanced tree every variable but the first hangs on an earlier one. So these
graphs grow factor by factor and have a clique tree, with one clique for every link. A loop has no
clique tree, because each of its variables belongs to two factors and no factor covers another one.
A union of chains falls into as many components as it has chains.
-/

namespace ExactInference

namespace FactorGraph

variable {W L : Type} {g : FactorGraph W L} {n : ℕ} {names s : List String}
  {scopes : List (List String)}

/-- A graph in one piece that grows factor by factor. -/
structure Grown (g : FactorGraph W L) : Prop where
  /-- The graph is well formed. -/
  sound : g.Sound
  /-- There is no hint. -/
  hint_eq : g.hint = none
  /-- There are variables. -/
  freeNames_ne_nil : g.freeNames ≠ []
  /-- Variables and factors need each other. -/
  covering : g.Covering
  /-- The factors hang on earlier ones. -/
  growing : Growing (g.factors.map Factor.names)
  /-- Every variable leads to every other one. -/
  connected : ∀ v ∈ g.freeNames, ∀ w ∈ g.freeNames, g.Connected v w

theorem Sound.names_subset (hg : g.Sound) {f : Factor W L} (hf : f ∈ g.factors) :
    f.names ⊆ g.freeNames := fun _ hv => map_name_freeAxes g ▸ (hg.within f hf).mem_names hv

/-- Growing parts over different variables grow one after the other. -/
theorem growing_flatMap {parts : List (FactorGraph W L)} (hparts : ∀ part ∈ parts, Grown part)
    (hnodup : (parts.flatMap freeNames).Nodup) :
    Growing ((parts.flatMap factors).map Factor.names) := by
  induction parts with
  | nil => exact .nil
  | cons part parts ih =>
    have hall := List.forall_mem_cons.1 hparts
    rw [List.flatMap_cons] at hnodup
    obtain ⟨-, hrest, hdis⟩ := List.nodup_append'.1 hnodup
    have hfree : ∀ {q : FactorGraph W L} {v : String}, Grown q →
        v ∈ (q.factors.map Factor.names).flatten → v ∈ q.freeNames := fun hq hv => by
      obtain ⟨s, hs, hvs⟩ := List.mem_flatten.1 hv
      obtain ⟨f, hf, rfl⟩ := List.mem_map.1 hs
      exact hq.sound.names_subset hf hvs
    rw [List.flatMap_cons, List.map_append]
    refine hall.1.growing.append (ih hall.2 hrest) fun v hv hin => hdis (hfree hall.1 hv) ?_
    rw [List.map_flatMap, List.mem_flatten] at hin
    obtain ⟨s, hs, hvs⟩ := hin
    obtain ⟨q, hq, hsq⟩ := List.mem_flatMap.1 hs
    exact List.mem_flatMap.2 ⟨q, hq, hfree (hall.2 q hq) (List.mem_flatten.2 ⟨s, hsq, hvs⟩)⟩

/-- Chains on numbered stems have no variable in common. -/
theorem nodup_flatMap_numberedNames {α : Type} (parts : List α) (size : α → ℕ) :
    (parts.zipIdx.flatMap fun e => numberedNames (chainStem e.2) (size e.1)).Nodup := by
  refine List.nodup_flatMap.2 ⟨fun e _ => nodup_numberedNames _ _, ?_⟩
  have hplaces : (parts.zipIdx.map Prod.snd).Nodup := by
    rw [List.zipIdx_map_snd]
    exact List.nodup_range'
  refine (List.pairwise_map.1 hplaces).imp fun {d e} hne v hd he => ?_
  obtain ⟨i, -, rfl⟩ := List.mem_map.1 hd
  obtain ⟨j, -, hij⟩ := List.mem_map.1 he
  exact hne (eq_of_numbered_chainStem hij).symm

variable [WeightScale W] [WeightScale L] [LogConversion W L]

/-- A graph that always has a clique tree. The variables fall into as many groups as given, and so
do the cliques, and message passing ends with as many roots. -/
structure HasForest (g : FactorGraph W L) (trees : ℕ) : Prop where
  /-- The groups of connected variables are counted. -/
  connected_eq : g.connectedComponents.length = trees
  /-- There is a tree, with and without a hint. -/
  exists_tree : ∀ useHint, ∃ t, (CliqueTree.ofGraph useHint g).answer = .ok t
  /-- The components of the tree are counted. -/
  components_eq : ∀ useHint t, (CliqueTree.ofGraph useHint g).answer = .ok t →
    t.components.length = trees
  /-- The roots are counted. -/
  exists_roots : ∀ useHint t, (CliqueTree.ofGraph useHint g).answer = .ok t → ∀ mode,
    ∃ roots p, Passing.run mode ⟨t, []⟩ = .ok roots p ∧ roots.Nodup ∧ roots.length = trees

/-- A growing graph has a tree with one component for each of its connected parts. -/
theorem Sound.hasForest (hg : g.Sound) (hhint : g.hint = none) (hfree : g.freeNames ≠ [])
    (hcover : g.Covering) (hgrowing : Growing (g.factors.map Factor.names))
    (parts : List (List String)) (hparts : parts.flatten = g.freeNames)
    (hne : ∀ p ∈ parts, p ≠ []) (hconnected : ∀ p ∈ parts, ∀ v ∈ p, ∀ w ∈ p, g.Connected v w)
    (hinside : ∀ f ∈ g.factors, ∃ p ∈ parts, f.names ⊆ p) : g.HasForest parts.length where
  connected_eq := hg.length_connectedComponents hparts hne hconnected hinside
  exists_tree _ := CliqueTree.exists_ofGraph_of_growing hg hcover hfree (fun _ => hhint) hgrowing
  components_eq useHint t ht := by
    obtain ⟨-, -, -, -, -, hcomponents⟩ :=
      CliqueTree.exists_roots_of_ofGraph hg hcover (fun _ => hhint) ht .sum
    rw [hcomponents, hg.length_connectedComponents hparts hne hconnected hinside]
  exists_roots useHint t ht mode := by
    obtain ⟨roots, p, hrun, hnodup, hroots, -⟩ :=
      CliqueTree.exists_roots_of_ofGraph hg hcover (fun _ => hhint) ht mode
    rw [hg.length_connectedComponents hparts hne hconnected hinside] at hroots
    exact ⟨roots, p, hrun, hnodup, hroots⟩

theorem Grown.hasForest (h : Grown g) : g.HasForest 1 :=
  h.sound.hasForest h.hint_eq h.freeNames_ne_nil h.covering h.growing [g.freeNames]
    (List.flatten_singleton ..) (List.forall_mem_singleton.2 h.freeNames_ne_nil)
    (List.forall_mem_singleton.2 h.connected)
    fun _ hf => ⟨_, List.mem_singleton_self _, h.sound.names_subset hf⟩

/-- A union of growing parts over different variables has one tree for every part. -/
theorem hasForest_union {parts : List (FactorGraph W L)} (hparts : ∀ part ∈ parts, Grown part)
    (hnodup : (parts.flatMap freeNames).Nodup) (hne : parts ≠ []) :
    (assembled (parts.flatMap declared) (parts.flatMap factors)).HasForest parts.length := by
  have hfree : (assembled (parts.flatMap declared) (parts.flatMap factors)).freeNames
      = parts.flatMap freeNames := by
    rw [freeNames_assembled (map_fst_flatMap_declared parts ▸ hnodup), map_fst_flatMap_declared]
  have hsound := (reachable_union (fun p hp => (hparts p hp).sound) hnodup).sound
  have hsome : parts.flatMap freeNames ≠ [] := by
    obtain ⟨part, hpart⟩ := List.exists_mem_of_ne_nil parts hne
    obtain ⟨v, hv⟩ := List.exists_mem_of_ne_nil _ (hparts part hpart).freeNames_ne_nil
    exact List.ne_nil_of_mem (List.mem_flatMap.2 ⟨part, hpart, hv⟩)
  have hcover : (assembled (parts.flatMap declared) (parts.flatMap factors)).Covering := by
    refine ⟨fun f hf => ?_, fun v hv => ?_⟩
    · obtain ⟨part, hpart, hf⟩ := List.mem_flatMap.1 hf
      exact (hparts part hpart).covering.names_ne_nil f hf
    · obtain ⟨part, hpart, hv⟩ := List.mem_flatMap.1 (hfree ▸ hv)
      obtain ⟨f, hf, hvf⟩ := (hparts part hpart).covering.exists_factor v hv
      exact ⟨f, List.mem_flatMap.2 ⟨part, hpart, hf⟩, hvf⟩
  have hforest := hsound.hasForest rfl (hfree ▸ hsome) hcover (growing_flatMap hparts hnodup)
    (parts.map freeNames) (hfree ▸ List.flatMap_def.symm) ?_ ?_ ?_
  · rwa [List.length_map] at hforest
  · exact List.forall_mem_map.2 fun part hpart => (hparts part hpart).freeNames_ne_nil
  · refine List.forall_mem_map.2 fun part hpart v hv w hw => ?_
    refine Relation.ReflTransGen.mono (fun a b hab => Linked.mono (fun l hl => ?_) hab) _ _
      ((hparts part hpart).connected v hv w hw)
    obtain ⟨f, hf, rfl⟩ := List.mem_map.1 hl
    exact List.mem_map_of_mem (List.mem_flatMap.2 ⟨part, hpart, hf⟩)
  · intro f hf
    obtain ⟨part, hpart, hf⟩ := List.mem_flatMap.1 hf
    exact ⟨_, List.mem_map_of_mem hpart, (hparts part hpart).sound.names_subset hf⟩

omit [LogConversion W L] in
theorem IsLaidOut.covering (h : IsLaidOut g n names scopes) (hne : ∀ s ∈ scopes, s ≠ [])
    (hmem : ∀ v ∈ names, ∃ s ∈ scopes, v ∈ s) : g.Covering where
  names_ne_nil f hf := hne _ (h.names_eq ▸ List.mem_map_of_mem hf)
  exists_factor v hv := by
    obtain ⟨s, hs, hvs⟩ := hmem v (h.freeNames_eq ▸ hv)
    obtain ⟨f, hf, rfl⟩ := List.mem_map.1 (h.names_eq.symm ▸ hs)
    exact ⟨f, hf, hvs⟩

omit [LogConversion W L] in
theorem IsLaidOut.minimalNames_perm (h : IsLaidOut g n names scopes) (hcover : g.Covering)
    {kept : List (List String)} (hnodup : kept.Nodup) (hsub : kept ⊆ scopes)
    (hmax : ∀ s ∈ kept, ∀ t ∈ scopes, s ⊆ t → t = s) (hkept : ∀ t ∈ scopes, ∃ s ∈ kept, t ⊆ s) :
    g.minimalNames.Perm kept := by
  have hscopes : ∀ f ∈ g.factors, f.names ∈ scopes := fun f hf =>
    h.names_eq ▸ List.mem_map_of_mem hf
  refine hcover.minimalNames_perm h.reachable.sound hnodup (fun s hs => ?_)
    (fun s hs f hf => hmax s hs _ (hscopes f hf)) fun f hf => hkept _ (hscopes f hf)
  exact List.mem_map.1 (h.names_eq.symm ▸ hsub hs)

theorem mem_linkScopes {x : ℕ → String} {links : List (ℕ × ℕ)} :
    s ∈ linkScopes x links ↔ s = [x 0] ∨ ∃ e ∈ links, [x e.1, x e.2] = s := by
  rw [linkScopes, List.mem_cons, List.mem_map]

theorem ne_nil_of_mem_linkScopes {x : ℕ → String} {links : List (ℕ × ℕ)}
    (hs : s ∈ linkScopes x links) : s ≠ [] := by
  rcases mem_linkScopes.1 hs with rfl | ⟨e, -, rfl⟩
  · exact List.cons_ne_nil _ _
  · exact List.cons_ne_nil _ _

/-- The links of variables each of which hangs on its parent. -/
def sprouts (parent : ℕ → ℕ) (m : ℕ) : List (ℕ × ℕ) := (List.range m).map fun k => (parent k, k + 1)

theorem sprouts_succ (parent : ℕ → ℕ) (m : ℕ) :
    sprouts parent (m + 1) = sprouts parent m ++ [(parent m, m + 1)] := by
  rw [sprouts, List.range_succ, List.map_append]
  rfl

theorem chainLinks_eq_sprouts (count : ℕ) : chainLinks count = sprouts id (count - 1) := rfl

/-- The children of the variables, one variable after the other, are all variables in order. -/
theorem treeLinks_eq_sprouts (count : ℕ) : treeLinks count = sprouts (· / 2) (count - 1) := by
  have hchildren : ∀ m, ((List.range m).flatMap fun i =>
      ([2 * i + 1, 2 * i + 2].filter (· < count)).map fun child => (i, child))
      = sprouts (· / 2) (min (2 * m) (count - 1)) := by
    intro m
    induction m with
    | zero => rw [Nat.mul_zero, Nat.zero_min]; rfl
    | succ m ih =>
      have hhalf : 2 * m / 2 = m ∧ (2 * m + 1) / 2 = m := by omega
      rw [List.range_succ, List.flatMap_append, ih, List.flatMap_singleton]
      by_cases hfirst : 2 * m + 1 < count
      · by_cases hsecond : 2 * m + 2 < count
        · rw [show min (2 * m) (count - 1) = 2 * m by omega,
            show min (2 * (m + 1)) (count - 1) = 2 * m + 1 + 1 by omega, sprouts_succ, sprouts_succ,
            hhalf.1, hhalf.2, List.append_assoc]
          simp [hfirst, hsecond]
        · rw [show min (2 * m) (count - 1) = 2 * m by omega,
            show min (2 * (m + 1)) (count - 1) = 2 * m + 1 by omega, sprouts_succ, hhalf.1]
          simp [hfirst, hsecond]
      · have hsecond : ¬ 2 * m + 2 < count := by omega
        rw [show min (2 * (m + 1)) (count - 1) = min (2 * m) (count - 1) by omega]
        simp [hfirst, hsecond]
  rw [treeLinks, hchildren, show min (2 * count) (count - 1) = count - 1 by omega]

section Sprouts

variable {x : ℕ → String} (hx : Function.Injective x) {parent : ℕ → ℕ}
  (hparent : ∀ k, parent k ≤ k) {m k : ℕ}

theorem mem_linkScopes_sprouts : s ∈ linkScopes x (sprouts parent m) ↔
    s = [x 0] ∨ ∃ k < m, [x (parent k), x (k + 1)] = s := by
  rw [mem_linkScopes, sprouts]
  simp

theorem exists_scope_of_le (hk : k ≤ m) : ∃ s ∈ linkScopes x (sprouts parent m), x k ∈ s := by
  cases k with
  | zero => exact ⟨_, mem_linkScopes_sprouts.2 (Or.inl rfl), List.mem_cons_self⟩
  | succ k =>
    exact ⟨_, mem_linkScopes_sprouts.2 (Or.inr ⟨k, hk, rfl⟩),
      List.mem_cons_of_mem _ List.mem_cons_self⟩

include hparent

theorem exists_le_of_mem_scope {v : String} (hs : s ∈ linkScopes x (sprouts parent m))
    (hv : v ∈ s) : ∃ i ≤ m, x i = v := by
  rcases mem_linkScopes_sprouts.1 hs with rfl | ⟨k, hk, rfl⟩
  · exact ⟨0, Nat.zero_le m, (List.mem_singleton.1 hv).symm⟩
  · rcases List.mem_pair.1 hv with rfl | rfl
    · exact ⟨parent k, (hparent k).trans hk.le, rfl⟩
    · exact ⟨k + 1, hk, rfl⟩

omit [LogConversion W L] in
/-- All variables lead back to the first one. -/
theorem IsLaidOut.connected_sprouts (h : IsLaidOut g n names (linkScopes x (sprouts parent m)))
    (hk : k ≤ m) : g.Connected (x 0) (x k) := by
  induction k using Nat.strong_induction_on with
  | h k ih =>
    cases k with
    | zero => exact .refl
    | succ k =>
      have hback := ih (parent k) (Nat.lt_succ_of_le (hparent k)) ((hparent k).trans (by omega))
      refine hback.tail ⟨[x (parent k), x (k + 1)], ?_, List.mem_cons_self,
        List.mem_cons_of_mem _ List.mem_cons_self⟩
      exact h.names_eq ▸ mem_linkScopes_sprouts.2 (Or.inr ⟨k, hk, rfl⟩)

include hx

/-- The newest variable is new, so a link shares at most its older end with the earlier ones. -/
theorem growing_sprouts (m : ℕ) : Growing (linkScopes x (sprouts parent m)) := by
  induction m with
  | zero =>
    have hfirst : Growing ([] ++ [[x 0]]) := .concat .nil (Or.inl rfl)
    exact hfirst
  | succ m ih =>
    rw [sprouts_succ, linkScopes_concat]
    obtain ⟨t, ht, hxt⟩ : ∃ t ∈ linkScopes x (sprouts parent m), x (parent m) ∈ t :=
      exists_scope_of_le (hparent m)
    refine .concat ih (Or.inr ⟨t, ht, fun v hv hin => ?_⟩)
    rcases List.mem_pair.1 hv with rfl | rfl
    · exact hxt
    · obtain ⟨s, hs, hvs⟩ := List.mem_flatten.1 hin
      obtain ⟨i, hi, he⟩ := exists_le_of_mem_scope hparent hs hvs
      have := hx he
      omega

omit [LogConversion W L] in
theorem IsLaidOut.grown_of_sprouts
    (h : IsLaidOut g n ((List.range (m + 1)).map x) (linkScopes x (sprouts parent m))) :
    Grown g where
  sound := h.reachable.sound
  hint_eq := h.hint_eq
  freeNames_ne_nil := by
    rw [h.freeNames_eq]
    simp
  covering := h.covering (fun _ => ne_nil_of_mem_linkScopes) fun v hv => by
    obtain ⟨k, hk, rfl⟩ := List.mem_map.1 hv
    exact exists_scope_of_le (Nat.lt_succ_iff.1 (List.mem_range.1 hk))
  growing := h.names_eq ▸ growing_sprouts hx hparent m
  connected := by
    have hfirst : ∀ v ∈ g.freeNames, g.Connected (x 0) v := fun v hv => by
      obtain ⟨k, hk, rfl⟩ := List.mem_map.1 (h.freeNames_eq ▸ hv)
      exact h.connected_sprouts hparent (Nat.lt_succ_iff.1 (List.mem_range.1 hk))
    have : Std.Symm (Linked (g.factors.map Factor.names)) :=
      ⟨fun _ _ ⟨l, hl, hv, hw⟩ => ⟨l, hl, hw, hv⟩⟩
    exact fun v hv w hw =>
      (Relation.ReflTransGen.stdSymm.symm _ _ (hfirst v hv)).trans (hfirst w hw)

/-- No link lies inside another one: it would have to go from its newer end on to a later
variable. -/
theorem eq_of_sprout_subset {j : ℕ}
    (hsub : [x (parent k), x (k + 1)] ⊆ [x (parent j), x (j + 1)]) : k = j := by
  have hold := List.mem_pair.1 (hsub List.mem_cons_self)
  have hchild := List.mem_pair.1 (hsub (List.mem_cons_of_mem _ List.mem_cons_self))
  rw [hx.eq_iff, hx.eq_iff] at hold hchild
  have hk := hparent k
  have hj := hparent j
  omega

omit [LogConversion W L] in
/-- The minimal factors are the links, or the prior if there are none. -/
theorem IsLaidOut.length_minimalNames_of_sprouts
    (h : IsLaidOut g n ((List.range (m + 1)).map x) (linkScopes x (sprouts parent m))) :
    g.minimalNames.length = max 1 m := by
  have hcover := (h.grown_of_sprouts hx hparent).covering
  cases m with
  | zero =>
    have hone : linkScopes x (sprouts parent 0) = [[x 0]] := rfl
    rw [hone] at h
    exact (h.minimalNames_perm hcover (List.nodup_singleton _) (List.Subset.refl _)
      (by simp) (by simp)).length_eq
  | succ m =>
    have hperm : g.minimalNames.Perm
        ((List.range (m + 1)).map fun k => [x (parent k), x (k + 1)]) := by
      refine h.minimalNames_perm hcover ?_ (List.subset_cons_of_subset _ ?_) ?_ ?_
      · exact List.nodup_range.map fun i j hij =>
          eq_of_sprout_subset hx hparent fun _ hv => hij ▸ hv
      · rw [sprouts, List.map_map]
        exact List.Subset.refl _
      · refine List.forall_mem_map.2 fun k hk t ht hsub => ?_
        rcases mem_linkScopes_sprouts.1 ht with rfl | ⟨j, hj, rfl⟩
        · have hchild := hsub (List.mem_cons_of_mem _ List.mem_cons_self)
          exact absurd (hx (List.mem_singleton.1 hchild)) (Nat.succ_ne_zero k)
        · rw [eq_of_sprout_subset hx hparent hsub]
      · intro t ht
        rcases mem_linkScopes_sprouts.1 ht with rfl | ⟨k, hk, rfl⟩
        · refine ⟨_, List.mem_map_of_mem (List.mem_range.2 (Nat.succ_pos m)), ?_⟩
          rw [Nat.le_zero.1 (hparent 0)]
          exact List.cons_subset.2 ⟨List.mem_cons_self, List.nil_subset _⟩
        · exact ⟨_, List.mem_map_of_mem (List.mem_range.2 hk), List.Subset.refl _⟩
    rw [hperm.length_eq, List.length_map, List.length_range]
    omega

end Sprouts

/-- The variable after another one in a loop. -/
def wrap (m k : ℕ) : ℕ := if k = m then 0 else k + 1

/-- The links of a chain and one more from its end to its start. -/
theorem sprouts_concat_closing (m : ℕ) :
    sprouts id m ++ [(m, 0)] = (List.range (m + 1)).map fun k => (k, wrap m k) := by
  rw [sprouts, List.range_succ, List.map_append, List.map_singleton, wrap, if_pos rfl]
  refine congrArg (· ++ _) (List.map_congr_left fun k hk => ?_)
  rw [wrap, if_neg (List.mem_range.1 hk).ne]
  rfl

theorem wrap_lt {m k : ℕ} (hk : k < m + 1) : wrap m k < m + 1 := by
  rw [wrap]
  split <;> omega

theorem wrap_ne {m k : ℕ} (hm : 2 ≤ m) : wrap m k ≠ k := by
  rw [wrap]
  split <;> omega

/-- Every variable of a loop comes after another one. -/
theorem exists_wrap_eq {m k : ℕ} (hk : k < m + 1) : ∃ j < m + 1, wrap m j = k := by
  cases k with
  | zero => exact ⟨m, Nat.lt_succ_self m, if_pos rfl⟩
  | succ k => exact ⟨k, by omega, if_neg (by omega)⟩

section Ring

variable {x : ℕ → String} (hx : Function.Injective x) {m k : ℕ} (hm : 2 ≤ m)

theorem mem_linkScopes_ring :
    s ∈ linkScopes x ((List.range (m + 1)).map fun k => (k, wrap m k)) ↔
      s = [x 0] ∨ ∃ k < m + 1, [x k, x (wrap m k)] = s := by
  rw [mem_linkScopes]
  simp

include hx hm

/-- No link of a loop lies inside another one: that would make a loop of two. -/
theorem eq_of_ring_subset {j : ℕ} (hsub : [x k, x (wrap m k)] ⊆ [x j, x (wrap m j)]) : k = j := by
  have hown := List.mem_pair.1 (hsub List.mem_cons_self)
  have hnext := List.mem_pair.1 (hsub (List.mem_cons_of_mem _ List.mem_cons_self))
  rw [hx.eq_iff, hx.eq_iff] at hown hnext
  rw [wrap, wrap] at hnext
  rw [wrap] at hown
  split at hnext <;> split at hnext <;> split at hown <;> omega

variable (h : IsLaidOut g n ((List.range (m + 1)).map x)
  (linkScopes x ((List.range (m + 1)).map fun k => (k, wrap m k))))

include h

omit [LogConversion W L] in
/-- The minimal factors of a loop are its links. -/
theorem IsLaidOut.minimalNames_ring :
    g.minimalNames.Perm ((List.range (m + 1)).map fun k => [x k, x (wrap m k)]) := by
  have hcover : g.Covering := h.covering (fun _ => ne_nil_of_mem_linkScopes) fun v hv => by
    obtain ⟨k, hk, rfl⟩ := List.mem_map.1 hv
    exact ⟨_, mem_linkScopes_ring.2 (Or.inr ⟨k, List.mem_range.1 hk, rfl⟩), List.mem_cons_self⟩
  refine h.minimalNames_perm hcover
    (List.nodup_range.map fun i j hij => eq_of_ring_subset hx hm fun _ hv => hij ▸ hv)
    (List.forall_mem_map.2 fun k hk =>
      mem_linkScopes_ring.2 (Or.inr ⟨k, List.mem_range.1 hk, rfl⟩)) ?_ ?_
  · refine List.forall_mem_map.2 fun k hk t ht hsub => ?_
    rcases mem_linkScopes_ring.1 ht with rfl | ⟨j, hj, rfl⟩
    · have hown := List.mem_singleton.1 (hsub List.mem_cons_self)
      have hnext := List.mem_singleton.1 (hsub (List.mem_cons_of_mem _ List.mem_cons_self))
      exact absurd (hx (hnext.trans hown.symm)) (wrap_ne hm)
    · rw [eq_of_ring_subset hx hm hsub]
  · intro t ht
    rcases mem_linkScopes_ring.1 ht with rfl | ⟨k, hk, rfl⟩
    · exact ⟨_, List.mem_map_of_mem (List.mem_range.2 (Nat.succ_pos m)),
        List.cons_subset.2 ⟨List.mem_cons_self, List.nil_subset _⟩⟩
    · exact ⟨_, List.mem_map_of_mem (List.mem_range.2 hk), List.Subset.refl _⟩

/-- In a loop of three or more variables each variable is in two links, so it has no tree. -/
theorem IsLaidOut.needsFillIn_of_ring (useHint : Bool) : ∃ remaining,
    (CliqueTree.ofGraph useHint g).answer = .error (.needsFillIn g.outline remaining) := by
  have hperm := h.minimalNames_ring hx hm
  have hminimal : ∀ {k}, k < m + 1 → [x k, x (wrap m k)] ∈ g.minimalNames := fun hk =>
    hperm.mem_iff.2 (List.mem_map_of_mem (List.mem_range.2 hk))
  have hother : ∀ {i j}, i ≠ j → [x i, x (wrap m i)] ≠ [x j, x (wrap m j)] := fun hij he =>
    hij (eq_of_ring_subset hx hm fun _ hv => he ▸ hv)
  refine CliqueTree.needsFillIn_of_shared h.reachable.sound ?_ (fun _ => h.hint_eq) ?_ ?_
  · rw [h.freeNames_eq]
    simp
  · rw [hperm.length_eq, List.length_map, List.length_range]
    omega
  · intro s hs v hv
    obtain ⟨k, hk, rfl⟩ := List.mem_map.1 (hperm.mem_iff.1 hs)
    have hk := List.mem_range.1 hk
    rcases List.mem_pair.1 hv with rfl | rfl
    · -- The link that ends where this one starts.
      obtain ⟨j, hj, rfl⟩ := exists_wrap_eq hk
      exact ⟨_, hminimal hj, hother (wrap_ne hm).symm, List.mem_cons_of_mem _ List.mem_cons_self⟩
    · exact ⟨_, hminimal (wrap_lt hk), hother (wrap_ne hm), List.mem_cons_self⟩

end Ring

variable {count : ℕ}

/-- The links of some variables are between different ones of them. -/
theorem lt_of_mem_sprouts {parent : ℕ → ℕ} (hparent : ∀ k, parent k ≤ k) :
    ∀ e ∈ sprouts parent (count - 1), e.1 < count ∧ e.2 < count ∧ e.1 ≠ e.2 := by
  refine List.forall_mem_map.2 fun k hk => ?_
  have hlt := List.mem_range.1 hk
  have hle := hparent k
  dsimp only
  omega

/-- Links to parents make a growing graph, with one clique for every link. -/
theorem exists_linked_sprouts (source : TableSource W) (stem : String) (hcount : 0 < count)
    (hn : 0 < n) (parent : ℕ → ℕ) (hparent : ∀ k, parent k ≤ k) :
    ∃ g : FactorGraph W L, linked source stem count n (sprouts parent (count - 1)) = .ok g ∧
      Grown g ∧ g.freeNames = numberedNames stem count ∧
      ∀ useHint t, (CliqueTree.ofGraph useHint g).answer = .ok t → t.size = max 1 (count - 1) := by
  obtain ⟨g, hg, h⟩ :=
    (yields_linked (L := L) source stem hcount hn (lt_of_mem_sprouts hparent)).exists_ok
  have hsize : count = count - 1 + 1 := by omega
  rw [numberedNames, hsize] at h
  have hx := numbered_injective stem
  refine ⟨g, hg, h.grown_of_sprouts hx hparent, ?_, fun useHint t ht => ?_⟩
  · rw [h.freeNames_eq, ← hsize]
    rfl
  · rw [(CliqueTree.built_of_ofGraph h.reachable.sound ht).size_eq h.reachable.sound]
    exact h.length_minimalNames_of_sprouts hx hparent

omit [LogConversion W L] in
/-- A chain that is closed. -/
theorem exists_loop (source closing : TableSource W) (stem : String) (hcount : 2 < count)
    (hn : 0 < n) : ∃ g : FactorGraph W L, loop source closing stem count n = .ok g ∧
      IsLaidOut g n ((List.range (count - 1 + 1)).map (numbered stem))
        (linkScopes (numbered stem)
          ((List.range (count - 1 + 1)).map fun k => (k, wrap (count - 1) k))) := by
  have hsize : count - 1 + 1 = count := by omega
  rw [← sprouts_concat_closing, linkScopes_concat, hsize]
  have hlinks : ∀ e ∈ sprouts id (count - 1), e.1 < count ∧ e.2 < count ∧ e.1 ≠ e.2 :=
    lt_of_mem_sprouts fun _ => le_rfl
  refine ((yields_linked source stem (by omega) hn hlinks).bind fun g hg => ?_).exists_ok
  exact hg.yields_link closing 0 (by omega) (by omega) (by omega)

/-- The chains of a union are made, and so is the union. -/
theorem exists_chains (hn : 0 < n) (parts : List (ℕ × TableSource W))
    (hparts : ∀ part ∈ parts, 0 < part.1) : ∃ graphs : List (FactorGraph W L),
      chains parts n
        = .ok (assembled (graphs.flatMap declared) (graphs.flatMap factors), graphs) ∧
      List.Forall₂ (fun e part => chain e.1.2 (chainStem e.2) e.1.1 n = .ok part)
        parts.zipIdx graphs ∧
      (∀ part ∈ graphs, Grown part) ∧
      graphs.flatMap freeNames
        = parts.zipIdx.flatMap fun e => numberedNames (chainStem e.2) e.1.1 := by
  have hpart : ∀ e ∈ parts.zipIdx, ∃ g : FactorGraph W L,
      chain e.1.2 (chainStem e.2) e.1.1 n = .ok g ∧ Grown g ∧
      g.freeNames = numberedNames (chainStem e.2) e.1.1 := fun e he => by
    obtain ⟨g, hg, hgrown, hnames, -⟩ := exists_linked_sprouts (L := L) e.1.2 (chainStem e.2)
      (hparts e.1 (List.fst_mem_of_mem_zipIdx he)) hn id fun _ => le_rfl
    rw [← chainLinks_eq_sprouts] at hg
    exact ⟨g, hg, hgrown, hnames⟩
  have : Nonempty (FactorGraph W L) := ⟨empty⟩
  choose! graphOf hmade hgrown hnames using hpart
  have hflat : (parts.zipIdx.map graphOf).flatMap freeNames
      = parts.zipIdx.flatMap fun e => numberedNames (chainStem e.2) e.1.1 := by
    rw [List.flatMap_map]
    exact List.flatMap_congr hnames
  have hgraphs : ∀ part ∈ parts.zipIdx.map graphOf, Grown part := List.forall_mem_map.2 hgrown
  have hall := mapM_eq_ok hmade
  refine ⟨parts.zipIdx.map graphOf, ?_, mapM_eq_ok_iff.1 hall, hgraphs, hflat⟩
  have hunion := union_eq_ok (fun part hpart => (hgraphs part hpart).sound)
    (hflat ▸ nodup_flatMap_numberedNames parts Prod.fst)
  exact bind_eq_ok_iff.2 ⟨_, hall, bind_eq_ok_iff.2 ⟨_, hunion, rfl⟩⟩

end FactorGraph

namespace FactorGraph

variable {W L : Type} [Semifield W] [LinearOrder W] [WeightScale W] [WeightScale L]
  [LogConversion W L] [ExactScale W] [ExactLog W L] {n : ℕ}

/-- Chains and balanced trees of every size and with all numbers in their tables have one tree, with
one clique for every link, and one root. Loops need fill-in from three variables on. Unions of
chains have different names, one connected component, one tree and one root for every chain, and the
product of the joint weights of the chains as their joint weight. -/
theorem families_at_every_size (hn : 0 < n) :
    (∀ (source : TableSource W) (stem : String) (count : ℕ), 0 < count →
      (∃ g : FactorGraph W L, chain source stem count n = .ok g ∧ g.HasForest 1 ∧
        ∀ useHint t, (CliqueTree.ofGraph useHint g).answer = .ok t →
          t.size = max 1 (count - 1)) ∧
      ∃ g : FactorGraph W L, binaryTree source stem count n = .ok g ∧ g.HasForest 1 ∧
        ∀ useHint t, (CliqueTree.ofGraph useHint g).answer = .ok t →
          t.size = max 1 (count - 1)) ∧
    (∀ (source closing : TableSource W) (stem : String) (count : ℕ), 2 < count →
      ∃ g : FactorGraph W L, loop source closing stem count n = .ok g ∧ ∀ useHint, ∃ remaining,
        (CliqueTree.ofGraph useHint g).answer = .error (.needsFillIn g.outline remaining)) ∧
    ∀ parts : List (ℕ × TableSource W), (∀ part ∈ parts, 0 < part.1) →
      ∃ (g : FactorGraph W L) (graphs : List (FactorGraph W L)), chains parts n = .ok (g, graphs) ∧
        List.Forall₂ (fun e part => chain e.1.2 (chainStem e.2) e.1.1 n = .ok part)
          parts.zipIdx graphs ∧
        g.freeNames = graphs.flatMap freeNames ∧ g.freeNames.Nodup ∧
        g.freeNames.length = (parts.map Prod.fst).sum ∧
        g.connectedComponents.length = parts.length ∧
        (parts ≠ [] → g.HasForest parts.length) ∧
        (parts = [] → ∀ useHint,
          (CliqueTree.ofGraph useHint g).answer = .error (.noFactors g.outline)) ∧
        ∀ x, g.jointWeightAt x = (graphs.map (jointWeightAt · x)).prod := by
  refine ⟨fun source stem count hcount => ⟨?_, ?_⟩, fun source closing stem count hcount => ?_,
    fun parts hparts => ?_⟩
  · obtain ⟨g, hg, hgrown, -, hsize⟩ := exists_linked_sprouts (L := L) source stem hcount hn id
      fun _ => le_rfl
    rw [← chainLinks_eq_sprouts] at hg
    exact ⟨g, hg, hgrown.hasForest, hsize⟩
  · obtain ⟨g, hg, hgrown, -, hsize⟩ := exists_linked_sprouts (L := L) source stem hcount hn
      (· / 2) fun k => Nat.div_le_self k 2
    rw [← treeLinks_eq_sprouts] at hg
    exact ⟨g, hg, hgrown.hasForest, hsize⟩
  · obtain ⟨g, hg, h⟩ := exists_loop (L := L) source closing stem hcount hn
    exact ⟨g, hg, h.needsFillIn_of_ring (numbered_injective stem) (by omega)⟩
  · obtain ⟨graphs, hmade, hchains, hgrown, hnames⟩ := exists_chains (L := L) hn parts hparts
    have hnodup : (graphs.flatMap freeNames).Nodup :=
      hnames ▸ nodup_flatMap_numberedNames parts Prod.fst
    have hfree : (assembled (graphs.flatMap declared) (graphs.flatMap factors)).freeNames
        = graphs.flatMap freeNames := by
      rw [freeNames_assembled (map_fst_flatMap_declared graphs ▸ hnodup), map_fst_flatMap_declared]
    have hlength : graphs.length = parts.length := by
      rw [← hchains.length_eq, List.length_zipIdx]
    have hforest : parts ≠ [] → HasForest _ parts.length := fun hne =>
      hlength ▸ hasForest_union hgrown hnodup fun hnil => hne
        (List.length_eq_zero_iff.1 (hlength ▸ List.length_eq_zero_iff.2 hnil))
    refine ⟨_, graphs, hmade, hchains, hfree, hfree ▸ hnodup, ?_, ?_, hforest, ?_,
      jointWeightAt_assembled_flatMap _ graphs⟩
    · rw [hfree, hnames, List.length_flatMap, ← List.zipIdx_map_fst 0 parts, List.map_map,
        List.zipIdx_map_fst]
      refine congrArg List.sum (List.map_congr_left fun e _ => ?_)
      rw [numberedNames, List.length_map, List.length_range]
      rfl
    · by_cases hne : parts = []
      · subst hne
        rw [List.length_eq_zero_iff.1 hlength]
        rfl
      · exact (hforest hne).connected_eq
    · rintro rfl useHint
      rw [List.length_eq_zero_iff.1 hlength]
      cases useHint <;> rfl

/-- A loop of three variables needs fill-in, and the union of two chains has two trees. -/
theorem families_at_small_sizes :
    (∃ g : FactorGraph ℚ≥0 (FormalLog ℚ≥0), loop (.uniform 2) (.uniform 2) "X" 3 2 = .ok g ∧
      ∃ remaining,
        (CliqueTree.ofGraph false g).answer = .error (.needsFillIn g.outline remaining)) ∧
    ∃ (g : FactorGraph ℚ≥0 (FormalLog ℚ≥0)) (graphs : List (FactorGraph ℚ≥0 (FormalLog ℚ≥0))),
      chains [(3, .uniform 2), (1, .uniform 2)] 2 = .ok (g, graphs) ∧ g.HasForest 2 ∧
      g.freeNames.length = 4 := by
  obtain ⟨-, hloop, hchains⟩ := families_at_every_size (W := ℚ≥0) (L := FormalLog ℚ≥0)
    (n := 2) (by decide)
  obtain ⟨g, hg, hfill⟩ := hloop (.uniform 2) (.uniform 2) "X" 3 (by decide)
  obtain ⟨g', graphs, hg', -, -, -, hlength, -, hforest, -⟩ :=
    hchains [(3, .uniform 2), (1, .uniform 2)] (by simp)
  exact ⟨⟨g, hg, hfill false⟩, g', graphs, hg', hforest (List.cons_ne_nil _ _), hlength⟩

end FactorGraph

end ExactInference
