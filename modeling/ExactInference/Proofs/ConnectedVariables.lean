import Mathlib.Combinatorics.Enumerative.DoubleCounting
import ExactInference.FactorGraph.Components
import ExactInference.Proofs.FillIn
import ExactInference.Proofs.JunctionTrees
import ExactInference.Proofs.LeafToRootSweeps

/-!
# The trees of a graph are its connected variables

Factors of the graph connect variables, and edges connect cliques. Merging factors and joining the
merged ones changes nothing about which variables are connected: a clique holds variables of one
factor, adjacent cliques share a variable, and every factor lies in some clique. So the trees of
cliques with variables match the groups of connected variables. A clique without variables has no
neighbor, and there is one at most.
-/

namespace ExactInference

/-- Sets whose elements are paired off by a relation have equally many elements. -/
theorem card_eq_of_existsUnique {α β : Type} [DecidableEq α] [DecidableEq β] {s : Finset α}
    {t : Finset β} {r : α → β → Prop} (hs : ∀ a ∈ s, ∃! b, b ∈ t ∧ r a b)
    (ht : ∀ b ∈ t, ∃! a, a ∈ s ∧ r a b) : s.card = t.card := by
  classical
  have hcard : s.card * 1 = t.card * 1 := by
    refine Finset.card_mul_eq_card_mul r (fun a ha => ?_) fun b hb => ?_
    · rw [Finset.card_eq_one, Finset.singleton_iff_unique_mem]
      simpa [Finset.mem_bipartiteAbove] using hs a ha
    · rw [Finset.card_eq_one, Finset.singleton_iff_unique_mem]
      simpa [Finset.mem_bipartiteBelow] using ht b hb
  omega

variable {W L : Type}

namespace FactorGraph

variable {g : FactorGraph W L} {group s : List String} {v w : String}

/-- Two variables that a chain of factors connects. -/
def Connected (g : FactorGraph W L) (v w : String) : Prop :=
  Relation.ReflTransGen (Linked (g.factors.map Factor.names)) v w

/-- A group holds the free variables that are connected with one of its variables. -/
theorem Sound.mem_group_iff (hg : g.Sound) (hgroup : group ∈ g.connectedComponents)
    (hv : v ∈ group) : w ∈ group ↔ w ∈ g.freeNames ∧ g.Connected v w := by
  refine ExactInference.mem_group_iff (fun l hl x hx => ?_) hgroup hv
  obtain ⟨f, hf, rfl⟩ := List.mem_map.1 hl
  obtain ⟨a, ha, rfl⟩ := List.mem_map.1 hx
  exact (mem_freeAxes.1 (hg.within f hf a ha)).1

theorem exists_group (hv : v ∈ g.freeNames) : ∃ group ∈ g.connectedComponents, v ∈ group :=
  (grouped_groupsOf g.freeNames _).exists_group v hv

/-- The variables of a minimal factor are connected. -/
theorem connected_of_mem_minimalNames (hs : s ∈ g.minimalNames) (hv : v ∈ s) (hw : w ∈ s) :
    g.Connected v w := by
  rcases mem_minimalNames.1 hs with ⟨c, hc, rfl⟩ | ⟨u, -, -, rfl⟩
  · have hkeeper : c.keeper ∈ g.factors := mem_factors_of_mem_members hc List.mem_cons_self
    exact Relation.ReflTransGen.single ⟨c.keptNames, List.mem_map_of_mem hkeeper, hv, hw⟩
  · rw [List.mem_singleton.1 hv, List.mem_singleton.1 hw]
    exact Relation.ReflTransGen.refl

/-- The variables of linked factors lie in one minimal factor. -/
theorem exists_minimalNames_of_linked (h : Linked (g.factors.map Factor.names) v w) :
    ∃ s ∈ g.minimalNames, v ∈ s ∧ w ∈ s := by
  obtain ⟨l, hl, hv, hw⟩ := h
  obtain ⟨f, hf, rfl⟩ := List.mem_map.1 hl
  obtain ⟨c, hc, hcovers⟩ := exists_keeper hf
  exact ⟨c.keptNames, mem_minimalNames.2 (Or.inl ⟨c, hc, rfl⟩), hcovers v hv, hcovers w hw⟩

variable [WeightScale W] [WeightScale L] [LogConversion W L]

/-- Minimal factors only mention free variables, and every one of them. -/
theorem Sound.exists_mem_minimalNames_iff (hg : g.Sound) :
    (∃ s ∈ g.minimalNames, v ∈ s) ↔ v ∈ g.freeNames := by
  obtain ⟨fs, hfs, hwithin, hcover⟩ := hg.minimalFactors_within
  rw [← hg.names_minimalFactors hfs]
  constructor
  · rintro ⟨s, hs, hv⟩
    obtain ⟨f, hf, rfl⟩ := List.mem_map.1 hs
    obtain ⟨a, ha, rfl⟩ := List.mem_map.1 hv
    exact (mem_freeAxes.1 (hwithin f hf a ha)).1
  · intro hv
    obtain ⟨f, hf, hvf⟩ := hcover v hv
    exact ⟨f.names, List.mem_map_of_mem hf, hvf⟩

end FactorGraph

namespace CliqueTree

variable {g : FactorGraph W L} {t : CliqueTree W L} {useHint : Bool} {i j : ℕ} {v w : String}
  {group s : List String}

/-- Adjacent cliques share a variable. -/
def Sharing (t : CliqueTree W L) : Prop :=
  ∀ {i j}, t.graph.Adj i j → ∃ v, v ∈ t.scopeOf i ∧ v ∈ t.scopeOf j

/-- A clique without variables is connected to no other one. -/
theorem Sharing.eq_of_reachable (h : t.Sharing) (hi : t.scopeOf i = ∅)
    (hij : t.graph.Reachable i j) : j = i := by
  refine reachable_induct (P := (· = i)) hij rfl fun u w hu hadj => ?_
  obtain ⟨v, hv, -⟩ := h (hu ▸ hadj)
  simp [hi] at hv

namespace Built

variable [WeightScale W] [WeightScale L] [LogConversion W L] (h : Built g t) (hg : g.Sound)
include h hg

/-- The cliques have the variables of the minimal factors. -/
theorem names_eq : t.cliques.map (fun c => c.factor.names) = g.minimalNames := by
  rw [← hg.names_minimalFactors h.factors_eq, List.map_map]
  rfl

theorem size_eq : t.size = g.minimalNames.length := by
  rw [← h.names_eq hg, List.length_map, size]

theorem scopeOf_eq : t.scopeOf = scopeSets g.minimalNames := by
  funext i
  ext v
  rw [mem_scopeSets, ← h.names_eq hg, List.getD_eq_getElem?_getD, List.getElem?_map]
  cases hc : t.cliques[i]? with
  | none => simp [CliqueTree.scopeOf, hc]
  | some c => simp [CliqueTree.scopeOf_eq hc, Factor.mem_vars]

/-- A clique has the variables of the minimal factor at its place. -/
theorem mem_scopeOf_iff_mem_getElem (hi : i < g.minimalNames.length) :
    v ∈ t.scopeOf i ↔ v ∈ g.minimalNames[i] := by
  rw [h.scopeOf_eq hg, mem_scopeSets, List.getD_eq_getElem?_getD, List.getElem?_eq_getElem hi,
    Option.getD_some]

theorem exists_names (hi : i < t.size) :
    ∃ s ∈ g.minimalNames, ∀ w, w ∈ t.scopeOf i ↔ w ∈ s := by
  rw [h.size_eq hg] at hi
  exact ⟨g.minimalNames[i], List.getElem_mem hi, fun _ => h.mem_scopeOf_iff_mem_getElem hg hi⟩

theorem exists_scopeOf (hs : s ∈ g.minimalNames) :
    ∃ i < t.size, ∀ v, v ∈ t.scopeOf i ↔ v ∈ s := by
  obtain ⟨i, hi, rfl⟩ := List.mem_iff_getElem.1 hs
  exact ⟨i, by rwa [h.size_eq hg], fun _ => h.mem_scopeOf_iff_mem_getElem hg hi⟩

theorem mem_freeNames_of_mem_scopeOf (hv : v ∈ t.scopeOf i) : v ∈ g.freeNames := by
  obtain ⟨s, hs, hiff⟩ := h.exists_names hg (lt_size_of_mem_scopeOf hv)
  exact hg.exists_mem_minimalNames_iff.1 ⟨s, hs, (hiff v).1 hv⟩

theorem connected_of_mem_scopeOf (hv : v ∈ t.scopeOf i) (hw : w ∈ t.scopeOf i) :
    g.Connected v w := by
  obtain ⟨s, hs, hiff⟩ := h.exists_names hg (lt_size_of_mem_scopeOf hv)
  exact FactorGraph.connected_of_mem_minimalNames hs ((hiff v).1 hv) ((hiff w).1 hw)

/-- A group holds the variables of a clique that are connected with one of its own. -/
theorem mem_group (hgroup : group ∈ g.connectedComponents) (hvg : v ∈ group)
    (hvw : g.Connected v w) (hw : w ∈ t.scopeOf i) : w ∈ group :=
  (hg.mem_group_iff hgroup hvg).2 ⟨h.mem_freeNames_of_mem_scopeOf hg hw, hvw⟩

/-- Cliques belong to one tree exactly if their variables are connected. -/
theorem reachable_iff (hsharing : t.Sharing) (hv : v ∈ t.scopeOf i) (hw : w ∈ t.scopeOf j) :
    t.graph.Reachable i j ↔ g.Connected v w := by
  have hforest := h.wellBuilt.forest
  constructor
  · intro hij
    exact reachable_induct (P := fun j => ∀ w ∈ t.scopeOf j, g.Connected v w) hij
      (fun w hw => h.connected_of_mem_scopeOf hg hv hw) (fun k l hk hadj w hw => by
        obtain ⟨u, huk, hul⟩ := hsharing hadj
        exact (hk u huk).trans (h.connected_of_mem_scopeOf hg hul hw)) w hw
  · intro hvw
    induction hvw generalizing j with
    | refl =>
      exact hforest.reachable_of_shared (lt_size_of_mem_scopeOf hv) (lt_size_of_mem_scopeOf hw)
        hv hw
    | tail _ hstep ih =>
      -- The clique of the last factor lies between.
      obtain ⟨s, hs, hus, hws⟩ := FactorGraph.exists_minimalNames_of_linked hstep
      obtain ⟨k, hk, hiff⟩ := h.exists_scopeOf hg hs
      exact (ih ((hiff _).2 hus)).trans (hforest.reachable_of_shared hk (lt_size_of_mem_scopeOf hw)
        ((hiff _).2 hws) hw)

/-- Cliques with variables belong to one tree exactly if one group holds all their variables. -/
theorem reachable_iff_exists_group (hsharing : t.Sharing) (hi : t.scopeOf i ≠ ∅)
    (hj : t.scopeOf j ≠ ∅) : t.graph.Reachable i j ↔ ∃ group ∈ g.connectedComponents,
      (∀ v ∈ t.scopeOf i, v ∈ group) ∧ ∀ v ∈ t.scopeOf j, v ∈ group := by
  obtain ⟨v, hv⟩ := Finset.nonempty_iff_ne_empty.2 hi
  obtain ⟨w, hw⟩ := Finset.nonempty_iff_ne_empty.2 hj
  rw [h.reachable_iff hg hsharing hv hw]
  constructor
  · intro hvw
    obtain ⟨group, hgroup, hvg⟩ := FactorGraph.exists_group (h.mem_freeNames_of_mem_scopeOf hg hv)
    refine ⟨group, hgroup, fun u hu => ?_, fun u hu => ?_⟩
    · exact h.mem_group hg hgroup hvg (h.connected_of_mem_scopeOf hg hv hu) hu
    · exact h.mem_group hg hgroup hvg (hvw.trans (h.connected_of_mem_scopeOf hg hw hu)) hu
  · rintro ⟨group, hgroup, hall, hall'⟩
    exact ((hg.mem_group_iff hgroup (hall v hv)).1 (hall' w hw)).2

/-- At most one clique has no variables. -/
theorem eq_of_scopeOf_eq_empty (hi : i < t.size) (hj : j < t.size) (hie : t.scopeOf i = ∅)
    (hje : t.scopeOf j = ∅) : i = j := by
  have hinc := incomparable_of_pairwise hg.pairwise_apart
  rw [← h.scopeOf_eq hg, ← h.size_eq hg] at hinc
  by_contra hne
  exact (hinc i (Finset.mem_range.2 hi) j (Finset.mem_range.2 hj) hne (by simp [hie])).2 hje

end Built

variable {roots : List Int} {r : ℕ}

theorem RootsOf.card_rootSet (hr : RootsOf t roots) : (rootSet roots).card = roots.length := by
  rw [rootSet, List.toFinset_card_of_nodup hr.nodup_toNat, List.length_map]

theorem RootsOf.lt_size_of_mem_rootSet (hr : RootsOf t roots) (h : r ∈ rootSet roots) :
    r < t.size := by
  obtain ⟨k, hk, hlt⟩ := hr.lt_size (hr.mem_rootSet.1 h)
  omega

namespace Built

variable [WeightScale W] [WeightScale L] [LogConversion W L] (h : Built g t) (hg : g.Sound)
  (hsharing : t.Sharing) (hr : RootsOf t roots)
include h hg hsharing hr

/-- The roots with variables are paired off with the groups. -/
theorem card_roots_with_variables :
    ((rootSet roots).filter fun r => t.scopeOf r ≠ ∅).card = g.connectedComponents.length := by
  have hfree : g.freeNames.Nodup := hg.keys_nodup.filter _
  have hgroups : g.connectedComponents.Nodup := nodup_groupsOf hfree _
  rw [← List.toFinset_card_of_nodup hgroups]
  refine card_eq_of_existsUnique (r := fun r group => ∃ v ∈ t.scopeOf r, v ∈ group) ?_ ?_
  · intro r hroot
    obtain ⟨v, hv⟩ := Finset.nonempty_iff_ne_empty.2 (Finset.mem_filter.1 hroot).2
    obtain ⟨group, hgroup, hvg⟩ := FactorGraph.exists_group (h.mem_freeNames_of_mem_scopeOf hg hv)
    refine ⟨group, ⟨List.mem_toFinset.2 hgroup, v, hv, hvg⟩, ?_⟩
    rintro other ⟨hother, w, hw, hwo⟩
    have hwg : w ∈ group :=
      h.mem_group hg hgroup hvg (h.connected_of_mem_scopeOf hg hv hw) hw
    exact eq_of_mem_groupsOf hfree (List.mem_toFinset.1 hother) hgroup hwo hwg
  · intro group hgroup
    have hgroup := List.mem_toFinset.1 hgroup
    obtain ⟨v, hv⟩ := List.exists_mem_of_ne_nil group ((grouped_groupsOf _ _).ne_nil group hgroup)
    obtain ⟨s, hs, hvs⟩ := hg.exists_mem_minimalNames_iff.2
      ((hg.mem_group_iff hgroup hv).1 hv).1
    obtain ⟨i, hi, hiff⟩ := h.exists_scopeOf hg hs
    have hvi := (hiff v).2 hvs
    obtain ⟨r, hroot, hri⟩ := hr.exists_root hi
    have hne : t.scopeOf r ≠ ∅ := fun hre => by
      rw [hsharing.eq_of_reachable hre hri, hre] at hvi
      simp at hvi
    obtain ⟨w, hw⟩ := Finset.nonempty_iff_ne_empty.2 hne
    have hwg : w ∈ group :=
      h.mem_group hg hgroup hv ((h.reachable_iff hg hsharing hvi hw).1 hri.symm) hw
    refine ⟨r, ⟨Finset.mem_filter.2 ⟨hr.mem_rootSet.2 hroot, hne⟩, w, hw, hwg⟩, ?_⟩
    rintro q ⟨hq, u, hu, hug⟩
    exact hr.unique (hr.mem_rootSet.1 (Finset.mem_filter.1 hq).1) hroot
      ((h.reachable_iff hg hsharing hu hw).2 ((hg.mem_group_iff hgroup hug).1 hwg).2)

/-- A clique without variables is the only root without variables. -/
theorem card_roots_without_variables :
    ((rootSet roots).filter fun r => ¬ t.scopeOf r ≠ ∅).card
      = if [] ∈ g.minimalNames then 1 else 0 := by
  split
  next hnil =>
    obtain ⟨i, hi, hiff⟩ := h.exists_scopeOf hg hnil
    have hie : t.scopeOf i = ∅ := Finset.eq_empty_of_forall_notMem fun v hv => by
      simpa using (hiff v).1 hv
    obtain ⟨r, hroot, hri⟩ := hr.exists_root hi
    have hroot : i ∈ rootSet roots := by
      rw [← hsharing.eq_of_reachable hie hri.symm]
      exact hr.mem_rootSet.2 hroot
    refine Finset.card_eq_one.2 ⟨i, Finset.ext fun q => ?_⟩
    rw [Finset.mem_filter, Finset.mem_singleton, not_not]
    constructor
    · rintro ⟨hq, hqe⟩
      exact h.eq_of_scopeOf_eq_empty hg (hr.lt_size_of_mem_rootSet hq) hi hqe hie
    · rintro rfl
      exact ⟨hroot, hie⟩
  next hnil =>
    refine Finset.card_eq_zero.2 (Finset.filter_eq_empty_iff.2 fun r hroot hre => hnil ?_)
    obtain ⟨s, hs, hiff⟩ := h.exists_names hg (hr.lt_size_of_mem_rootSet hroot)
    have hse : s = [] := List.eq_nil_iff_forall_not_mem.2 fun v hv => by
      simpa [not_not.1 hre] using (hiff v).2 hv
    exact hse ▸ hs

end Built

/-- Two cliques with variables lie in one component exactly if one group holds the variables of
both. -/
def SameComponents (g : FactorGraph W L) (t : CliqueTree W L) : Prop :=
  ∀ i j, t.scopeOf i ≠ ∅ → t.scopeOf j ≠ ∅ → ((∃ c ∈ t.components, i ∈ c ∧ j ∈ c) ↔
    ∃ group ∈ g.connectedComponents, (∀ v ∈ t.scopeOf i, v ∈ group) ∧ ∀ v ∈ t.scopeOf j, v ∈ group)

variable [WeightScale W] [WeightScale L] [LogConversion W L]

/-- Message passing ends with one root for each group, and with one more if a minimal factor has no
variables. -/
def OneRootEach (mode : Mode) (g : FactorGraph W L) (t : CliqueTree W L) : Prop :=
  ∃ factors roots p, g.minimalFactors = .ok factors ∧ Passing.run mode ⟨t, []⟩ = .ok roots p ∧
    roots.Nodup ∧ roots.length = g.connectedComponents.length
      + if ∃ f ∈ factors, f.names = [] then 1 else 0

/-- The components of the tree of a graph match its groups of connected variables, and so do the
roots that are found along its own schedule. -/
theorem components_match_groups (hg : FactorGraph.Reachable g)
    (ht : (ofGraph useHint g).answer = .ok t) :
    SameComponents g t ∧ ((useHint = true → g.hint = none) → ∀ mode, OneRootEach mode g t) := by
  have hsound := hg.sound
  have hbuilt := built_of_ofGraph hsound ht
  obtain ⟨factors, done, order, hmade⟩ := exists_madeBy ht
  have hsharing : t.Sharing := hmade.exists_shared
  constructor
  · intro i j hi hj
    rw [← hbuilt.reachable_iff_exists_group hsound hsharing hi hj]
    constructor
    · rintro ⟨c, hc, hic, hjc⟩
      exact (mem_component_iff hbuilt.wellBuilt hc hic).1 hjc
    · intro hij
      obtain ⟨v, hv⟩ := Finset.nonempty_iff_ne_empty.2 hi
      have hflat : i ∈ t.components.flatten := by
        rw [(components_perm t).mem_iff, List.mem_range]
        exact lt_size_of_mem_scopeOf hv
      obtain ⟨c, hc, hic⟩ := List.mem_flatten.1 hflat
      exact ⟨c, hc, hic, (mem_component_iff hbuilt.wellBuilt hc hic).2 hij⟩
  · intro hhint mode
    have hdelivers := delivers_of_ofGraph ht hhint hbuilt.wellBuilt.forest.lt_size
    obtain ⟨roots, p, -, -, hrun, -, -, hr, -⟩ := hbuilt.taken hsound mode hdelivers
    refine ⟨factors, roots, p, hmade.minimal, hrun, hr.nodup, ?_⟩
    have hnames : (∃ f ∈ factors, f.names = []) ↔ [] ∈ g.minimalNames := by
      rw [← hsound.names_minimalFactors hmade.minimal, List.mem_map]
    rw [← hr.card_rootSet, ← Finset.card_filter_add_card_filter_not fun r => t.scopeOf r ≠ ∅,
      hbuilt.card_roots_with_variables hsound hsharing hr,
      hbuilt.card_roots_without_variables hsound hsharing hr]
    simp only [hnames]

/-- A factor whose variables are observed, beside a variable that no factor mentions. -/
def besideObserved : Except Fault (FactorGraph ℚ≥0 (FormalLog ℚ≥0)) := do
  let pair ← FactorGraph.ofFactors [pairFactor "D" "E" 4 0 5 1]
  let bare ← pair.addVariable "F" (.count 3)
  bare.conditional (OrderedMap.ofList [("D", (0 : Int)), ("E", (1 : Int))])

theorem reachable_of_besideObserved {g : FactorGraph ℚ≥0 (FormalLog ℚ≥0)}
    (h : besideObserved = .ok g) : FactorGraph.Reachable g := by
  obtain ⟨pair, hpair, h⟩ := bind_eq_ok_iff.1 h
  obtain ⟨bare, hbare, h⟩ := bind_eq_ok_iff.1 h
  exact .conditional (.addVariable (.ofFactors hpair) hbare) h

/-- A tree of three groups, and one with a clique that has no variables. -/
theorem components_match_islands :
    (∃ g t, Engine.islands = .ok g ∧ (ofGraph false g).answer = .ok t ∧ SameComponents g t ∧
      ∀ mode, OneRootEach mode g t) ∧
    ∃ g t, besideObserved = .ok g ∧ (ofGraph false g).answer = .ok t ∧
      g.connectedComponents = [["F"]] ∧ t.size = 2 ∧ ∀ mode, OneRootEach mode g t := by
  constructor
  · have hok : (Engine.islands >>= fun g => (ofGraph false g).answer).toBool = true := by
      decide +kernel
    obtain ⟨t, hrun⟩ := exists_of_toBool hok
    obtain ⟨g, hg, ht⟩ := bind_eq_ok_iff.1 hrun
    obtain ⟨hcomponents, hroots⟩ := components_match_groups (Engine.reachable_of_islands hg) ht
    exact ⟨g, t, hg, ht, hcomponents, hroots fun h : false = true => by cases h⟩
  · have hok : (besideObserved >>= fun g => do
        let t ← (ofGraph false g).answer
        if g.connectedComponents = [["F"]] ∧ t.size = 2 then .ok (g, t)
        else .error .listIndex).toBool = true := by
      decide +kernel
    obtain ⟨⟨h, u⟩, hrun⟩ := exists_of_toBool hok
    obtain ⟨g, hg, hrun⟩ := bind_eq_ok_iff.1 hrun
    obtain ⟨t, ht, hrun⟩ := bind_eq_ok_iff.1 hrun
    split at hrun
    next hshape =>
      obtain ⟨-, hroots⟩ := components_match_groups (reachable_of_besideObserved hg) ht
      exact ⟨g, t, hg, ht, hshape.1, hshape.2, hroots fun h : false = true => by cases h⟩
    next => cases hrun

end CliqueTree

end ExactInference
