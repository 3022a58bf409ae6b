import Mathlib.Data.List.GetD
import ExactInference.Proofs.ConnectedVariables

/-!
# Graphs that grow factor by factor

If every factor of a graph shares with the earlier ones only what one of them holds, then the
factors can be taken out again from the last to the first, so the graph has a clique tree. Minimal
factors are the factors that no other factor covers. The connected variables, the components of the
tree and the roots of message passing are equally many.
-/

namespace ExactInference

section Scopes

variable {scopes more before : List (List String)} {s : List String}

/-- Whether a scope comes first, or shares with the earlier ones only what one of them holds. -/
def HangsOn (s : List String) (before : List (List String)) : Prop :=
  before = [] ∨ ∃ t ∈ before, ∀ v ∈ s, v ∈ before.flatten → v ∈ t

/-- Scopes each of which hangs on the ones before it. -/
inductive Growing : List (List String) → Prop
  /-- There are no scopes yet. -/
  | nil : Growing []
  /-- One more scope comes last. -/
  | concat {scopes : List (List String)} {s : List String} :
    Growing scopes → HangsOn s scopes → Growing (scopes ++ [s])

/-- Scopes over other names do not disturb. -/
theorem HangsOn.append_left (h : HangsOn s before) (hdis : ∀ v ∈ s, v ∉ scopes.flatten) :
    HangsOn s (scopes ++ before) := by
  rcases h with rfl | ⟨t, ht, hshared⟩
  · rw [List.append_nil]
    cases scopes with
    | nil => exact Or.inl rfl
    | cons t rest => exact Or.inr ⟨t, List.mem_cons_self, fun v hv hin => absurd hin (hdis v hv)⟩
  · refine Or.inr ⟨t, List.mem_append_right _ ht, fun v hv hin => ?_⟩
    rw [List.flatten_append, List.mem_append] at hin
    exact hshared v hv (hin.resolve_left (hdis v hv))

/-- Growing scopes over different names grow one after the other. -/
theorem Growing.append (h : Growing scopes) (h' : Growing more)
    (hdis : scopes.flatten.Disjoint more.flatten) : Growing (scopes ++ more) := by
  induction h' with
  | nil => rwa [List.append_nil]
  | @concat more s _ hs ih =>
    rw [List.flatten_append, List.disjoint_append_right] at hdis
    rw [← List.append_assoc]
    refine .concat (ih hdis.1) (hs.append_left fun v hv hin => hdis.2 hin ?_)
    simpa using hv

theorem mem_scopeSets_of_lt {k : ℕ} {v : String} (hk : k < scopes.length) :
    v ∈ scopeSets scopes k ↔ v ∈ scopes[k] := by
  rw [mem_scopeSets, List.getD_eq_getElem _ _ hk]

theorem scopeSets_append_of_lt {k : ℕ} (hk : k < scopes.length) :
    scopeSets (scopes ++ more) k = scopeSets scopes k := by
  rw [scopeSets, scopeSets, List.getD_append _ _ _ _ hk]

theorem scopeSets_concat (scopes : List (List String)) (s : List String) :
    scopeSets (scopes ++ [s]) scopes.length = s.toFinset := by
  rw [scopeSets, List.getD_append_right _ _ _ _ le_rfl, Nat.sub_self]
  rfl

/-- Growing scopes can be taken out from the last to the first. -/
theorem Growing.reducible (h : Growing scopes) :
    Reducible (scopeSets scopes) (Finset.range scopes.length) := by
  induction h with
  | nil => exact .single (by simp)
  | @concat scopes s _ hs ih =>
    rw [List.length_append, List.length_singleton]
    rcases hs with rfl | ⟨t, ht, hshared⟩
    · exact .single (by simp)
    · obtain ⟨j, hj, rfl⟩ := List.getElem_of_mem ht
      have hown : ∀ {k}, k ∈ Finset.range (scopes.length + 1) → k ≠ scopes.length →
          k < scopes.length := fun hk hne => by
        rw [Finset.mem_range] at hk
        omega
      refine .ear (i := scopes.length) ⟨Finset.self_mem_range_succ _, j,
        Finset.mem_range.2 (by omega), by omega, fun k hk hne v hv => ?_⟩ ?_
      · have hk := hown hk hne
        rw [scopeSets_concat, scopeSets_append_of_lt hk, Finset.mem_inter, List.mem_toFinset,
          mem_scopeSets_of_lt hk] at hv
        rw [scopeSets_append_of_lt hj, mem_scopeSets_of_lt hj]
        exact hshared v hv.1 (List.mem_flatten.2 ⟨_, List.getElem_mem hk, hv.2⟩)
      · have hrest : (Finset.range (scopes.length + 1)).erase scopes.length
            = (Finset.range scopes.length).image id := by
          rw [Finset.range_add_one, Finset.erase_insert Finset.notMem_range_self, Finset.image_id]
        rw [hrest]
        refine ih.image (Set.injOn_id _) fun a ha b hb _ => ?_
        rw [id, id, scopeSets_append_of_lt (Finset.mem_range.1 ha),
          scopeSets_append_of_lt (Finset.mem_range.1 hb)]

end Scopes

variable {W L : Type}

namespace FactorGraph

variable {g : FactorGraph W L} {s : List String}

/-- A graph whose factors mention something, and together every free variable. -/
structure Covering (g : FactorGraph W L) : Prop where
  /-- No factor is without variables. -/
  names_ne_nil : ∀ f ∈ g.factors, f.names ≠ []
  /-- No variable is without factors. -/
  exists_factor : ∀ v ∈ g.freeNames, ∃ f ∈ g.factors, v ∈ f.names

/-- Every factor lies in a minimal factor. -/
theorem exists_minimalNames {f : Factor W L} (hf : f ∈ g.factors) :
    ∃ s ∈ g.minimalNames, f.names ⊆ s := by
  obtain ⟨c, hc, hcovers⟩ := exists_keeper hf
  exact ⟨c.keptNames, mem_minimalNames.2 (Or.inl ⟨c, hc, rfl⟩), fun v hv => hcovers v hv⟩

namespace Covering

variable (h : Covering g)
include h

/-- A minimal factor has the variables of some factor. -/
theorem exists_of_mem_minimalNames (hs : s ∈ g.minimalNames) : ∃ f ∈ g.factors, f.names = s := by
  rcases mem_minimalNames.1 hs with ⟨c, hc, rfl⟩ | ⟨v, hv, hbare, rfl⟩
  · exact ⟨c.keeper, mem_factors_of_mem_members hc List.mem_cons_self, rfl⟩
  · exact absurd (mentions_iff.2 (h.exists_factor v hv)) hbare

theorem nil_notMem_minimalNames : [] ∉ g.minimalNames := fun hnil => by
  obtain ⟨f, hf, hnames⟩ := h.exists_of_mem_minimalNames hnil
  exact h.names_ne_nil f hf hnames

/-- Two minimal factors, one of which lies inside the other, are the same. -/
theorem eq_of_subset (hg : g.Sound) {t : List String} (hs : s ∈ g.minimalNames)
    (ht : t ∈ g.minimalNames) (hsub : s ⊆ t) : s = t := by
  by_contra hne
  have : Std.Symm (Apart : List String → List String → Prop) := ⟨fun _ _ hst => hst.symm⟩
  obtain ⟨hnil, -⟩ := (hg.pairwise_apart.forall hs ht hne).1 hsub
  exact h.nil_notMem_minimalNames (hnil ▸ hs)

theorem nodup_minimalNames (hg : g.Sound) : g.minimalNames.Nodup := by
  refine hg.pairwise_apart.imp_of_mem fun {s t} hs _ hst he => ?_
  obtain ⟨hnil, -⟩ := hst.1 (he ▸ fun _ hv => hv)
  exact h.nil_notMem_minimalNames (hnil ▸ hs)

/-- The minimal factors are those that no other factor covers. -/
theorem minimalNames_perm (hg : g.Sound) {scopes : List (List String)} (hnodup : scopes.Nodup)
    (hfactor : ∀ s ∈ scopes, ∃ f ∈ g.factors, f.names = s)
    (hmax : ∀ s ∈ scopes, ∀ f ∈ g.factors, s ⊆ f.names → f.names = s)
    (hcover : ∀ f ∈ g.factors, ∃ s ∈ scopes, f.names ⊆ s) : g.minimalNames.Perm scopes := by
  have hminimal : ∀ s ∈ scopes, s ∈ g.minimalNames := by
    intro s hs
    obtain ⟨f, hf, hfs⟩ := hfactor s hs
    obtain ⟨t, ht, hsub⟩ := exists_minimalNames hf
    obtain ⟨k, hk, rfl⟩ := h.exists_of_mem_minimalNames ht
    rw [hfs] at hsub
    exact hmax s hs k hk hsub ▸ ht
  refine (List.perm_ext_iff_of_nodup (h.nodup_minimalNames hg) hnodup).2 fun t =>
    ⟨fun ht => ?_, hminimal t⟩
  obtain ⟨f, hf, rfl⟩ := h.exists_of_mem_minimalNames ht
  obtain ⟨s, hs, hsub⟩ := hcover f hf
  exact h.eq_of_subset hg ht (hminimal s hs) hsub ▸ hs

end Covering

/-- If the factors keep to the parts of the free variables, and every part is connected, then the
groups of connected variables are as many as the parts. -/
theorem Sound.length_connectedComponents (hg : g.Sound) {parts : List (List String)}
    (hparts : parts.flatten = g.freeNames) (hne : ∀ p ∈ parts, p ≠ [])
    (hconnected : ∀ p ∈ parts, ∀ v ∈ p, ∀ w ∈ p, g.Connected v w)
    (hinside : ∀ f ∈ g.factors, ∃ p ∈ parts, f.names ⊆ p) :
    g.connectedComponents.length = parts.length := by
  have hfree : g.freeNames.Nodup := hg.keys_nodup.filter _
  have hapart : parts.Pairwise List.Disjoint := (List.nodup_flatten.1 (hparts ▸ hfree)).2
  have hsame : ∀ {p q v}, p ∈ parts → q ∈ parts → v ∈ p → v ∈ q → p = q := by
    intro p q v hp hq hvp hvq
    by_contra hpq
    have : Std.Symm (List.Disjoint (α := String)) := ⟨fun _ _ h _ hx hy => h hy hx⟩
    exact hapart.forall hp hq hpq hvp hvq
  have hstays : ∀ {p v w}, p ∈ parts → v ∈ p → g.Connected v w → w ∈ p := by
    intro p v w hp hv hvw
    induction hvw with
    | refl => exact hv
    | tail _ hstep ih =>
      obtain ⟨l, hl, hx, hy⟩ := hstep
      obtain ⟨f, hf, rfl⟩ := List.mem_map.1 hl
      obtain ⟨q, hq, hsub⟩ := hinside f hf
      exact hsame hp hq ih (hsub hx) ▸ hsub hy
  have hnodup : parts.Nodup := by
    refine hapart.imp_of_mem fun {p q} hp _ hpq he => ?_
    obtain ⟨v, hv⟩ := List.exists_mem_of_ne_nil p (hne p hp)
    exact hpq hv (he ▸ hv)
  have hgroups : g.connectedComponents.Nodup := nodup_groupsOf hfree _
  rw [← List.toFinset_card_of_nodup hgroups, ← List.toFinset_card_of_nodup hnodup]
  refine card_eq_of_existsUnique (r := fun group p => ∃ v ∈ group, v ∈ p) ?_ ?_
  · intro group hgroup
    have hgroup : group ∈ g.connectedComponents := List.mem_toFinset.1 hgroup
    obtain ⟨v, hv⟩ := List.exists_mem_of_ne_nil group ((grouped_groupsOf _ _).ne_nil group hgroup)
    have hvfree := ((hg.mem_group_iff hgroup hv).1 hv).1
    obtain ⟨p, hp, hvp⟩ := List.mem_flatten.1 (hparts.symm ▸ hvfree)
    refine ⟨p, ⟨List.mem_toFinset.2 hp, v, hv, hvp⟩, ?_⟩
    rintro q ⟨hq, w, hw, hwq⟩
    have hvw := ((hg.mem_group_iff hgroup hv).1 hw).2
    exact hsame (List.mem_toFinset.1 hq) hp hwq (hstays hp hvp hvw)
  · intro p hp
    have hp := List.mem_toFinset.1 hp
    obtain ⟨v, hv⟩ := List.exists_mem_of_ne_nil p (hne p hp)
    have hvfree : v ∈ g.freeNames := hparts ▸ List.mem_flatten.2 ⟨p, hp, hv⟩
    obtain ⟨group, hgroup, hvg⟩ := exists_group hvfree
    refine ⟨group, ⟨List.mem_toFinset.2 hgroup, v, hvg, hv⟩, ?_⟩
    rintro other ⟨hother, w, hwo, hwp⟩
    have hwfree : w ∈ g.freeNames := hparts ▸ List.mem_flatten.2 ⟨p, hp, hwp⟩
    have hwg : w ∈ group := (hg.mem_group_iff hgroup hvg).2 ⟨hwfree, hconnected p hp v hv w hwp⟩
    exact eq_of_mem_groupsOf hfree (List.mem_toFinset.1 hother) hgroup hwo hwg

end FactorGraph

namespace CliqueTree

variable [WeightScale W] [WeightScale L] [LogConversion W L] {g : FactorGraph W L}
  {t : CliqueTree W L} {useHint : Bool} {roots : List Int}

/-- A graph that grows factor by factor has a tree. -/
theorem exists_ofGraph_of_growing (hg : g.Sound) (hcover : g.Covering) (hfree : g.freeNames ≠ [])
    (hhint : useHint = true → g.hint = none) (hgrowing : Growing (g.factors.map Factor.names)) :
    ∃ t, (ofGraph useHint g).answer = .ok t := by
  obtain ⟨fs, hfs, hne⟩ := hg.exists_minimalFactors_ne_nil hfree
  have hnames := hg.names_minimalFactors hfs
  have hinc := incomparable_of_pairwise hg.pairwise_apart
  have hred : Reducible (scopeSets g.minimalNames) (Finset.range g.minimalNames.length) := by
    refine hgrowing.reducible.of_incomparable hinc (fun j hj => ?_) fun i hi => ?_
    · have hj := Finset.mem_range.1 hj
      obtain ⟨f, hf, hfj⟩ := hcover.exists_of_mem_minimalNames (List.getElem_mem hj)
      obtain ⟨i, hi, he⟩ := List.getElem_of_mem (List.mem_map_of_mem (f := Factor.names) hf)
      refine ⟨i, Finset.mem_range.2 hi, ?_⟩
      rw [scopeSets, scopeSets, List.getD_eq_getElem _ _ hi, List.getD_eq_getElem _ _ hj, he, hfj]
    · have hi := Finset.mem_range.1 hi
      obtain ⟨f, hf, hfi⟩ := List.mem_map.1 (List.getElem_mem hi)
      obtain ⟨s, hs, hsub⟩ := FactorGraph.exists_minimalNames hf
      obtain ⟨j, hj, rfl⟩ := List.getElem_of_mem hs
      refine ⟨j, Finset.mem_range.2 hj, fun v hv => ?_⟩
      rw [mem_scopeSets_of_lt hi, ← hfi] at hv
      rw [mem_scopeSets_of_lt hj]
      exact hsub hv
  rw [← hnames] at hred hinc
  obtain ⟨done, hdone⟩ := Elimination.exists_run (rankIn g.freeNames) (nodup_names fs)
    (by simpa using hne) (fs.map Factor.size) hred hinc
  exact exists_ofGraph hhint hfs hne hdone

/-- A graph whose minimal factors have no variable to themselves has no tree. -/
theorem needsFillIn_of_shared (hg : g.Sound) (hfree : g.freeNames ≠ [])
    (hhint : useHint = true → g.hint = none) (hmany : 1 < g.minimalNames.length)
    (hshared : ∀ s ∈ g.minimalNames, ∀ v ∈ s, ∃ t ∈ g.minimalNames, t ≠ s ∧ v ∈ t) :
    ∃ remaining, (ofGraph useHint g).answer = .error (.needsFillIn g.outline remaining) := by
  obtain ⟨fs, hfs, hne⟩ := hg.exists_minimalFactors_ne_nil hfree
  cases ht : (ofGraph useHint g).answer with
  | error fault =>
    obtain ⟨remaining, rfl⟩ := needsFillIn_of_ofGraph hhint hfs hne ht
    exact ⟨remaining, rfl⟩
  | ok t =>
    -- The first clique to be taken out would have a variable of its own.
    have hinc := incomparable_of_pairwise hg.pairwise_apart
    obtain ⟨i, hear, hsome⟩ :=
      (reducible_of_ofGraph hg ht).exists_ear hinc (by rwa [Finset.card_range])
    obtain ⟨v, hv, hown⟩ := hear.exists_own hinc hsome
    have hi := Finset.mem_range.1 hear.1
    rw [mem_scopeSets_of_lt hi] at hv
    obtain ⟨s, hs, hsne, hvs⟩ := hshared _ (List.getElem_mem hi) v hv
    obtain ⟨k, hk, rfl⟩ := List.getElem_of_mem hs
    have hki := hown k (Finset.mem_range.2 hk) ((mem_scopeSets_of_lt hk).2 hvs)
    subst hki
    exact absurd rfl hsne

omit [WeightScale W] [WeightScale L] [LogConversion W L] in
/-- Every component has one root. -/
theorem RootsOf.length_components (hr : RootsOf t roots) {axes : List Axis}
    (hbuilt : t.WellBuilt axes) : t.components.length = roots.length := by
  have hnodup : t.components.Nodup := nodup_groupsOf List.nodup_range _
  have hexists : ∀ {i}, i < t.size → ∃ c ∈ t.components, i ∈ c := fun hi =>
    List.mem_flatten.1 ((components_perm t).mem_iff.2 (List.mem_range.2 hi))
  rw [← hr.card_rootSet, ← List.toFinset_card_of_nodup hnodup]
  refine card_eq_of_existsUnique (r := fun c r => r ∈ c) (fun c hc => ?_) fun r hroot => ?_
  · have hc := List.mem_toFinset.1 hc
    obtain ⟨i, hi⟩ := List.exists_mem_of_ne_nil c ((grouped_groupsOf _ _).ne_nil c hc)
    obtain ⟨r, hroot, hri⟩ := hr.exists_root (lt_size_of_mem_component hc hi)
    refine ⟨r, ⟨hr.mem_rootSet.2 hroot, (mem_component_iff hbuilt hc hi).2 hri.symm⟩, ?_⟩
    rintro q ⟨hq, hqc⟩
    have hiq := (mem_component_iff hbuilt hc hi).1 hqc
    exact hr.unique (hr.mem_rootSet.1 hq) hroot (hri.trans hiq).symm
  · obtain ⟨c, hc, hrc⟩ := hexists (hr.lt_size_of_mem_rootSet hroot)
    refine ⟨c, ⟨List.mem_toFinset.2 hc, hrc⟩, ?_⟩
    rintro d ⟨hd, hrd⟩
    exact eq_of_mem_groupsOf List.nodup_range (List.mem_toFinset.1 hd) hc hrd hrc

/-- The tree of a graph without bare variables and factors has as many components as there are
groups of connected variables, and message passing ends with as many roots. -/
theorem exists_roots_of_ofGraph (hg : g.Sound) (hcover : g.Covering)
    (hhint : useHint = true → g.hint = none) (ht : (ofGraph useHint g).answer = .ok t)
    (mode : Mode) : ∃ roots p, Passing.run mode ⟨t, []⟩ = .ok roots p ∧ roots.Nodup ∧
      roots.length = g.connectedComponents.length ∧
      t.components.length = g.connectedComponents.length := by
  have hbuilt := built_of_ofGraph hg ht
  obtain ⟨factors, done, order, hmade⟩ := exists_madeBy ht
  have hsharing : t.Sharing := hmade.exists_shared
  have hdelivers := delivers_of_ofGraph ht hhint hbuilt.wellBuilt.forest.lt_size
  obtain ⟨roots, p, -, -, hrun, -, -, hr, -⟩ := hbuilt.taken hg mode hdelivers
  have hlength : roots.length = g.connectedComponents.length := by
    rw [← hr.card_rootSet, ← Finset.card_filter_add_card_filter_not fun r => t.scopeOf r ≠ ∅,
      hbuilt.card_roots_with_variables hg hsharing hr,
      hbuilt.card_roots_without_variables hg hsharing hr, if_neg hcover.nil_notMem_minimalNames,
      Nat.add_zero]
  exact ⟨roots, p, hrun, hr.nodup, hlength, (hr.length_components hbuilt.wellBuilt).trans hlength⟩

end CliqueTree

end ExactInference
