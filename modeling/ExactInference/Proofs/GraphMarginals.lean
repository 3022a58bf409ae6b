import ExactInference.FactorGraph.JointWeight
import ExactInference.Proofs.BuiltTrees

/-!
# Marginals of a graph

A marginal of a graph collects its joint weights over all free variables but some, by summing or
by maximizing. The product of the cliques of a tree is the joint weight and their variables are the
free ones, so a marginal of all cliques is a marginal of the graph.
-/

namespace ExactInference

/-- A joint state of some variables extends to one of all variables. -/
theorem exists_inRange_of_names {axes : List Axis} (hpos : ∀ a ∈ axes, 0 < a.card)
    {names : Finset String} {x : JointState}
    (hx : ∀ a ∈ axes, a.name ∈ names → x a.name < a.card) :
    ∃ y, InRange axes y ∧ ∀ n ∈ names, y n = x n := by
  refine ⟨fun n => if n ∈ names then x n else 0, fun a ha => ?_, fun n hn => if_pos hn⟩
  change (if a.name ∈ names then x a.name else 0) < a.card
  split
  next hn => exact hx a ha hn
  next => exact hpos a ha

/-- A joint state of some of the axes extends to one of all axes. -/
theorem exists_inRange {axes : List Axis} (hpos : ∀ a ∈ axes, 0 < a.card)
    (hd : (axes.map Axis.name).Nodup) {s : Scope} (hs : s.Within axes) {x : JointState}
    (hx : InRange s.axes x) : ∃ y, InRange axes y ∧ ∀ n ∈ s.names, y n = x n := by
  have hnames : ∀ a ∈ axes, a.name ∈ s.names.toFinset → x a.name < a.card := fun a ha hn =>
    hx a (hs.mem_of_name hd ha (List.mem_toFinset.1 hn))
  obtain ⟨y, hy, hyx⟩ := exists_inRange_of_names hpos hnames
  exact ⟨y, hy, fun n hn => hyx n (List.mem_toFinset.2 hn)⟩

/-- All variables can be in their first states. -/
theorem inRange_origin {axes : List Axis} (hpos : ∀ a ∈ axes, 0 < a.card) :
    InRange axes JointState.origin := fun a ha => hpos a ha

/-- The joint weight only looks at the free variables. -/
theorem FactorGraph.Sound.reads_jointWeightAt {W L : Type} [WeightScale W] [WeightScale L]
    [LogConversion W L] {g : FactorGraph W L} (hg : g.Sound) :
    Reads g.jointWeightAt g.freeNames.toFinset := by
  refine fun x y hxy => productAt_congr fun f hf n hn => hxy n ?_
  rw [List.mem_toFinset, ← map_name_freeAxes]
  exact (hg.within f hf).mem_names hn

variable {W L : Type} [Semifield W] [WeightScale W] [WeightScale L] [LogConversion W L]
  {mode : Mode} {x : JointState}

namespace FactorGraph

variable [LinearOrder W] {g : FactorGraph W L}

/-- The joint weights of all joint states that agree with a given one on some variables, summed or
maximized. -/
def marginalOver (mode : Mode) (g : FactorGraph W L) (kept : Finset String) : JointState → W :=
  mode.collapse g.freeAxes (g.freeNames.toFinset \ kept) g.jointWeightAt

/-- A marginal only looks at the variables that it keeps. -/
theorem Sound.reads_marginalOver (hg : g.Sound) (mode : Mode) (kept : Finset String) :
    Reads (g.marginalOver mode kept) kept := by
  refine (Mode.reads_collapse mode hg.reads_jointWeightAt fun n hn => ?_).mono ?_
  · rwa [map_name_freeAxes, ← List.mem_toFinset]
  · rw [sdiff_sdiff_right_self]
    exact Finset.inter_subset_right

/-- A marginal that keeps nothing is a number. -/
theorem Sound.marginalOver_empty (hg : g.Sound) (mode : Mode) (x y : JointState) :
    g.marginalOver mode ∅ x = g.marginalOver mode ∅ y :=
  hg.reads_marginalOver mode ∅ x y fun n hn => absurd hn (Finset.notMem_empty n)

variable [ExactScale W]

/-- Adding up the joint weights over all axes but some. -/
theorem jointWeightOver_eq (g : FactorGraph W L) (kept : Finset String) (x : JointState) :
    g.jointWeightOver (g.freeAxes.filter fun a => a.name ∉ kept) x
      = g.marginalOver .sum kept x := by
  have haxes : axesIn g.freeAxes (g.freeNames.toFinset \ kept)
      = g.freeAxes.filter fun a => a.name ∉ kept := by
    refine List.filter_congr fun a ha => ?_
    have hn : a.name ∈ g.freeNames := map_name_freeAxes g ▸ List.mem_map_of_mem ha
    simp [hn]
  rw [jointWeightOver, Mode.total_eq_collect, marginalOver, Mode.collapse, variants, haxes]

/-- The partition function is the marginal that keeps nothing. -/
theorem Sound.partitionFunction_eq (hg : g.Sound) (x : JointState) :
    g.partitionFunction = g.marginalOver .sum ∅ x := by
  rw [hg.marginalOver_empty .sum x JointState.origin, ← jointWeightOver_eq, partitionFunction]
  congr 1
  exact (List.filter_eq_self.2 fun a _ => by simp).symm

end FactorGraph

namespace CliqueTree

variable {g : FactorGraph W L} {t : CliqueTree W L}

/-- The product of the cliques is the product of their factors. -/
theorem prod_weightOf (t : CliqueTree W L) (x : JointState) :
    ∏ i ∈ Finset.range t.size, t.weightOf i x
      = ((t.cliques.map Clique.factor).map (Factor.weightAt · x)).prod := by
  have hlist : (List.range t.size).map (t.weightOf · x)
      = (t.cliques.map Clique.factor).map (Factor.weightAt · x) := by
    refine List.ext_getElem (by simp [size]) fun i hi hi' => ?_
    rw [List.getElem_map, List.getElem_range, List.getElem_map, List.getElem_map]
    exact weightOf_eq (List.getElem?_eq_getElem _) x
  rw [← hlist]
  rfl

namespace Built

variable [LinearOrder W] [ExactScale W] [ExactLog W L]

/-- The product of the cliques is the joint weight. -/
theorem prod_weightOf_eq (h : Built g t) (hg : g.Sound) (hx : InRange g.freeAxes x) :
    ∏ i ∈ Finset.range t.size, t.weightOf i x = g.jointWeightAt x := by
  obtain ⟨fs, hfs, -, -, hprod⟩ := hg.minimalFactors_spec
  have hfs' : fs = t.cliques.map Clique.factor := Except.ok.inj (hfs.symm.trans h.factors_eq)
  rw [prod_weightOf, ← hfs', hprod x hx]

/-- The cliques hold the free variables. -/
theorem biUnion_scopeOf (h : Built g t) (hg : g.Sound) :
    (Finset.range t.size).biUnion t.scopeOf = g.freeNames.toFinset := by
  obtain ⟨fs, hfs, -, hcover, -⟩ := hg.minimalFactors_spec
  have hfs' : fs = t.cliques.map Clique.factor := Except.ok.inj (hfs.symm.trans h.factors_eq)
  ext n
  rw [Finset.mem_biUnion, List.mem_toFinset]
  constructor
  · rintro ⟨i, -, hn⟩
    rw [← FactorGraph.map_name_freeAxes]
    exact h.wellBuilt.scopeOf_subset i n hn
  · intro hn
    obtain ⟨f, hf, hnf⟩ := hcover n hn
    rw [hfs'] at hf
    obtain ⟨c, hc, rfl⟩ := List.mem_map.1 hf
    obtain ⟨i, hi⟩ := List.mem_iff_getElem?.1 hc
    refine ⟨i, Finset.mem_range.2 (lt_size_of_getElem? hi), ?_⟩
    rw [scopeOf_eq hi]
    exact Factor.mem_vars.2 hnf

/-- A marginal of all cliques is a marginal of the graph. -/
theorem cliqueMarginal_eq (h : Built g t) (hg : g.Sound) (mode : Mode) (kept : Finset String)
    (hx : InRange g.freeAxes x) :
    cliqueMarginal mode g.freeAxes t.scopeOf t.weightOf (Finset.range t.size) kept x
      = g.marginalOver mode kept x := by
  rw [cliqueMarginal, h.biUnion_scopeOf hg, FactorGraph.marginalOver]
  exact Mode.collapse_congr mode fun y hy =>
    h.prod_weightOf_eq hg (inRange_of_mem_variants hg.freeNames_nodup hx hy)

end Built

end CliqueTree

namespace FactorGraph

variable [LinearOrder W] [CanonicallyOrderedAdd W] {g : FactorGraph W L}

/-- Collecting a marginal over some of the variables that it keeps leaves the marginal that keeps
the others. -/
theorem Sound.collapse_marginalOver_sdiff (hg : g.Sound) (mode : Mode) {kept fewer : Finset String}
    (hfewer : fewer ⊆ kept) (hkept : kept ⊆ g.freeNames.toFinset) :
    mode.collapse g.freeAxes (kept \ fewer) (g.marginalOver mode kept)
      = g.marginalOver mode fewer :=
  Mode.collapse_sdiff mode hg.freeNames_nodup hfewer hkept g.jointWeightAt

/-- Collecting a marginal over the variables that it keeps leaves the marginal that keeps
nothing. -/
theorem Sound.collapse_marginalOver (hg : g.Sound) (mode : Mode) {kept : Finset String}
    (hkept : kept ⊆ g.freeNames.toFinset) :
    mode.collapse g.freeAxes kept (g.marginalOver mode kept) = g.marginalOver mode ∅ := by
  have hall := hg.collapse_marginalOver_sdiff mode (Finset.empty_subset kept) hkept
  rwa [Finset.sdiff_empty] at hall

variable [IsStrictOrderedRing W]

/-- Every joint weight is at most the largest one. -/
theorem Sound.jointWeightAt_le (hg : g.Sound) (hx : InRange g.freeAxes x) (y : JointState) :
    g.jointWeightAt x ≤ g.marginalOver .max ∅ y := by
  rw [hg.marginalOver_empty .max y x]
  exact Mode.le_collapse .max (self_mem_variants hg.freeNames_nodup hx)

end FactorGraph

end ExactInference
