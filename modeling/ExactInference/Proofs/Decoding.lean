import ExactInference.Engine
import ExactInference.Proofs.Rescaling

/-!
# Decoding a best joint state

Max-marginals are decoded one clique after the other, each by the best states that agree with what
is fixed already. In traceback order only variables that the clique shares with one neighbor are
fixed before, so the decoded states can always be completed to a best joint state: what lies behind
the clique can be exchanged without touching the rest.
-/

namespace ExactInference

variable {W : Type}

section Exchange

variable [Semifield W] [LinearOrder W] [CanonicallyOrderedAdd W] {size i : ℕ} {G : SimpleGraph ℕ}
  {scope : ℕ → Finset String} {weight : ℕ → JointState → W} {axes : List Axis} {x y z : JointState}

/-- A max-marginal is the weight of some joint state. -/
theorem exists_eq_cliqueMarginal (scope : ℕ → Finset String) (weight : ℕ → JointState → W)
    (hd : (axes.map Axis.name).Nodup) (hx : InRange axes x) (cliques : Finset ℕ)
    (kept : Finset String) :
    ∃ y, InRange axes y ∧ (∀ n ∈ kept, y n = x n) ∧
      cliqueMarginal .max axes scope weight cliques kept x = ∏ j ∈ cliques, weight j y := by
  have hne : (variants axes (cliques.biUnion scope \ kept) x).map
      (fun y => ∏ j ∈ cliques, weight j y) ≠ [] := by
    have hself : x ∈ variants axes (cliques.biUnion scope \ kept) x := self_mem_variants hd hx
    exact fun he => List.ne_nil_of_mem hself (List.map_eq_nil_iff.1 he)
  obtain ⟨y, hy, hyx⟩ := List.mem_map.1 (Mode.collect_max_mem hne)
  refine ⟨y, inRange_of_mem_variants hd hx hy, fun n hn => ?_, hyx.symm⟩
  exact eq_of_mem_variants hd hx hy fun hin => (Finset.mem_sdiff.1 hin).2 hn

variable [IsStrictOrderedRing W]

/-- No joint state weighs more than the max-marginal says. -/
theorem prod_le_cliqueMarginal (mode : Mode) (hd : (axes.map Axis.name).Nodup)
    (hx : InRange axes x) (cliques : Finset ℕ) (kept : Finset String) :
    ∏ j ∈ cliques, weight j x ≤ cliqueMarginal mode axes scope weight cliques kept x :=
  Mode.le_collapse (F := fun x => ∏ j ∈ cliques, weight j x) mode (self_mem_variants hd hx)

/-- Take the states of some variables from one joint state and all others from another one. -/
def splice (vars : Finset String) (x y : JointState) : JointState :=
  fun n => if n ∈ vars then x n else y n

theorem inRange_splice (hx : InRange axes x) (hy : InRange axes y) (vars : Finset String) :
    InRange axes (splice vars x y) := by
  intro a ha
  change (if a.name ∈ vars then x a.name else y a.name) < a.card
  split
  · exact hx a ha
  · exact hy a ha

/-- If the variables are those of a scope, then the first one only has to be in range there. -/
theorem Scope.Within.inRange_splice {s : Scope} (h : s.Within axes)
    (hd : (axes.map Axis.name).Nodup) (hx : InRange s.axes x) (hy : InRange axes y) :
    InRange axes (splice s.names.toFinset x y) := by
  intro a ha
  change (if a.name ∈ s.names.toFinset then x a.name else y a.name) < a.card
  split
  next hn => exact hx a (h.mem_of_name hd ha (List.mem_toFinset.1 hn))
  next => exact hy a ha

/-- Some cliques behind a clique: whatever they share with others, the clique has as well, and it
is known. -/
structure Behind (size : ℕ) (scope : ℕ → Finset String) (known : Finset String) (i : ℕ)
    (cliques : Finset ℕ) : Prop where
  /-- The clique is one of them. -/
  self_mem : i ∈ cliques
  /-- Variables that are shared with other cliques. -/
  crossing : ∀ {j k v}, j ∈ cliques → k < size → k ∉ cliques → v ∈ scope j → v ∈ scope k →
    v ∈ scope i ∧ v ∈ known
  /-- Variables that are known. -/
  known_of : ∀ {j v}, j ∈ cliques → v ∈ scope j → v ∈ known → v ∈ scope i

variable {known : Finset String} {back tree : Finset ℕ}

omit [Semifield W] [LinearOrder W] [IsStrictOrderedRing W] [CanonicallyOrderedAdd W] in
theorem Behind.weight_splice_of_mem (hweight : ∀ j, Reads (weight j) (scope j)) {j : ℕ}
    (hj : j ∈ back) (x y : JointState) :
    weight j (splice (back.biUnion scope) x y) = weight j x :=
  hweight j _ _ fun _ hv => if_pos (Finset.mem_biUnion.2 ⟨j, hj, hv⟩)

omit [Semifield W] [LinearOrder W] [IsStrictOrderedRing W] [CanonicallyOrderedAdd W] in
theorem Behind.weight_splice_of_notMem (h : Behind size scope known i back)
    (hweight : ∀ j, Reads (weight j) (scope j))
    (hsame : ∀ v, v ∈ scope i → v ∈ known → x v = y v) {k : ℕ} (hk : k < size) (hkb : k ∉ back) :
    weight k (splice (back.biUnion scope) x y) = weight k y := by
  refine hweight k _ _ fun v hv => ?_
  by_cases hin : v ∈ back.biUnion scope
  · obtain ⟨j, hj, hvj⟩ := Finset.mem_biUnion.1 hin
    obtain ⟨hvi, hvk⟩ := h.crossing hj hk hkb hvj hv
    exact (if_pos hin).trans (hsame v hvi hvk)
  · exact if_neg hin

/-- If the states of a clique are as good for its tree as those of a given joint state, then what
lies behind the clique can be exchanged: some joint state has these states and weighs as much. -/
theorem Behind.exists_exchange (h : Behind size scope known i back)
    (hd : (axes.map Axis.name).Nodup) (hweight : ∀ j, Reads (weight j) (scope j))
    (haxes : ∀ j, ∀ n ∈ scope j, n ∈ axes.map Axis.name) (htree : tree ⊆ Finset.range size)
    (hback : back ⊆ tree) (hy : InRange axes y) (hz : InRange axes z)
    (hsame : ∀ v ∈ known, z v = y v)
    (hbest : cliqueMarginal .max axes scope weight tree (scope i) z
      ≤ cliqueMarginal .max axes scope weight tree (scope i) y) :
    ∃ z', InRange axes z' ∧ (∀ v, v ∈ known ∨ v ∈ scope i → z' v = y v) ∧
      ∏ j ∈ Finset.range size, weight j z ≤ ∏ j ∈ Finset.range size, weight j z' := by
  obtain ⟨w, hw, hwy, hattained⟩ := exists_eq_cliqueMarginal scope weight hd hy tree (scope i)
  have hvars : scope i ⊆ back.biUnion scope := Finset.subset_biUnion_of_mem scope h.self_mem
  have hzw : ∀ v, v ∈ scope i → v ∈ known → z v = w v := fun v hvi hvk =>
    (hsame v hvk).trans (hwy v hvi).symm
  have hlt : ∀ {k}, k ∈ tree → k < size := fun hk => Finset.mem_range.1 (htree hk)
  -- The best completion with the given states behind the clique is not better.
  have hmixed : (∏ k ∈ tree \ back, weight k w) * ∏ j ∈ back, weight j z
      ≤ (∏ k ∈ tree \ back, weight k w) * ∏ j ∈ back, weight j w := by
    have hprod : ∏ j ∈ tree, weight j (splice (back.biUnion scope) z w)
        = (∏ k ∈ tree \ back, weight k w) * ∏ j ∈ back, weight j z := by
      rw [← Finset.prod_sdiff hback]
      congr 1
      · exact Finset.prod_congr rfl fun k hk => h.weight_splice_of_notMem hweight hzw
          (hlt (Finset.mem_sdiff.1 hk).1) (Finset.mem_sdiff.1 hk).2
      · exact Finset.prod_congr rfl fun j hj => Behind.weight_splice_of_mem hweight hj z w
    have hreads : cliqueMarginal .max axes scope weight tree (scope i)
        (splice (back.biUnion scope) z w)
        = cliqueMarginal .max axes scope weight tree (scope i) z :=
      reads_cliqueMarginal .max hweight haxes tree (scope i) _ _ fun v hv => if_pos (hvars hv)
    calc (∏ k ∈ tree \ back, weight k w) * ∏ j ∈ back, weight j z
        = ∏ j ∈ tree, weight j (splice (back.biUnion scope) z w) := hprod.symm
      _ ≤ cliqueMarginal .max axes scope weight tree (scope i) (splice (back.biUnion scope) z w) :=
          prod_le_cliqueMarginal .max hd (inRange_splice hz hw _) tree (scope i)
      _ = cliqueMarginal .max axes scope weight tree (scope i) z := hreads
      _ ≤ cliqueMarginal .max axes scope weight tree (scope i) y := hbest
      _ = (∏ k ∈ tree \ back, weight k w) * ∏ j ∈ back, weight j w := by
          rw [hattained, Finset.prod_sdiff hback]
  by_cases hzero : ∏ k ∈ tree \ back, weight k w = 0
  · -- Nothing in the tree has weight, so any states are best.
    have htop : cliqueMarginal .max axes scope weight tree (scope i) y = 0 := by
      rw [hattained, ← Finset.prod_sdiff hback, hzero, zero_mul]
    have hnone : ∏ j ∈ tree, weight j z = 0 := by
      refine le_antisymm ?_ zero_le
      rw [← htop]
      exact (prod_le_cliqueMarginal .max hd hz tree (scope i)).trans hbest
    refine ⟨y, hy, fun _ _ => rfl, ?_⟩
    rw [← Finset.prod_sdiff htree, hnone, mul_zero]
    exact zero_le
  · have hgain : ∏ j ∈ back, weight j z ≤ ∏ j ∈ back, weight j w :=
      le_of_mul_le_mul_left hmixed (pos_iff_ne_zero.2 hzero)
    have hrange : back ⊆ Finset.range size := hback.trans htree
    refine ⟨splice (back.biUnion scope) w z, inRange_splice hw hz _, fun v hv => ?_, ?_⟩
    · by_cases hin : v ∈ back.biUnion scope
      · obtain ⟨j, hj, hvj⟩ := Finset.mem_biUnion.1 hin
        have hvi : v ∈ scope i := hv.elim (h.known_of hj hvj) id
        exact (if_pos hin).trans (hwy v hvi)
      · exact (if_neg hin).trans (hsame v (hv.resolve_right fun hvi => hin (hvars hvi)))
    · have hout : ∏ k ∈ Finset.range size \ back, weight k (splice (back.biUnion scope) w z)
          = ∏ k ∈ Finset.range size \ back, weight k z :=
        Finset.prod_congr rfl fun k hk => h.weight_splice_of_notMem hweight
          (fun v hvi hvk => (hzw v hvi hvk).symm)
          (Finset.mem_range.1 (Finset.mem_sdiff.1 hk).1) (Finset.mem_sdiff.1 hk).2
      have hin : ∏ j ∈ back, weight j (splice (back.biUnion scope) w z)
          = ∏ j ∈ back, weight j w :=
        Finset.prod_congr rfl fun j hj => Behind.weight_splice_of_mem hweight hj w z
      rw [← Finset.prod_sdiff hrange, ← Finset.prod_sdiff hrange, hout, hin]
      exact mul_le_mul_of_nonneg_left hgain zero_le

/-- In traceback order there are cliques behind the next one, as far as it is connected. -/
theorem IsJoinForest.exists_behind (h : IsJoinForest size G scope) (hi : i < size)
    {before : List ℕ} (hlt : ∀ k ∈ before, k < size)
    (hstep : (∀ k ∈ before, ¬ G.Reachable k i) ∨
      ∃ p ∈ before, G.Adj p i ∧ ∀ k ∈ before, G.Reachable k i → OnSide G p i k) :
    ∃ back ⊆ treeOf size G i, Behind size scope (before.toFinset.biUnion scope) i back := by
  have hshared : ∀ {j k v}, G.Reachable i j → j < size → k < size → v ∈ scope j → v ∈ scope k →
      G.Reachable k i := fun hij hj hk hvj hvk =>
    (h.reachable_of_shared hk hj hvk hvj).trans hij.symm
  have hknown : ∀ {v}, v ∈ before.toFinset.biUnion scope ↔ ∃ k ∈ before, v ∈ scope k := by
    simp
  rcases hstep with hapart | ⟨p, hp, hadj, hside⟩
  · refine ⟨treeOf size G i, subset_rfl, IsJoinForest.self_mem_treeOf hi, ?_, ?_⟩
    · intro j k v hj hk hkt hvj hvk
      rw [h.mem_treeOf hi] at hj hkt
      exact absurd (hshared hj (h.lt_of_reachable hi hj) hk hvj hvk).symm hkt
    · intro j v hj hvj hv
      rw [h.mem_treeOf hi] at hj
      obtain ⟨k, hk, hvk⟩ := hknown.1 hv
      exact absurd (hshared hj (h.lt_of_reachable hi hj) (hlt k hk) hvj hvk) (hapart k hk)
  · have hmem : ∀ {j}, j ∈ side size G i p ↔ OnSide G i p j := h.mem_side hi
    refine ⟨side size G i p, fun j hj => ?_, hmem.2 (OnSide.self G i p), ?_, ?_⟩
    · exact (h.mem_treeOf hi).2 (hmem.1 hj).reachable
    · intro j k v hj hk hkb hvj hvk
      obtain ⟨hvi, hvp⟩ := h.shared_of_crossing (lt_of_mem_side hj) hk (hmem.1 hj)
        (fun hk' => hkb (hmem.2 hk')) hvj hvk
      exact ⟨hvi, hknown.2 ⟨p, hp, hvp⟩⟩
    · intro j v hj hvj hv
      obtain ⟨k, hk, hvk⟩ := hknown.1 hv
      have hreach := hshared (hmem.1 hj).reachable (lt_of_mem_side hj) (hlt k hk) hvj hvk
      exact (h.shared_of_crossing (lt_of_mem_side hj) (hlt k hk) (hmem.1 hj)
        (OnSide.not_both h.acyclic hadj (hside k hk hreach)) hvj hvk).1

end Exchange

/-- States that are put in are read from where they come. -/
theorem JointState.observe_restrict (x y : JointState) (ns : List String) (n : String) :
    x.observe (y.restrict ns) n = if n ∈ ns then y n else x n := by
  induction ns with
  | nil => rfl
  | cons m ns ih =>
    change ((x.observe (y.restrict ns)).set m (y m)) n = _
    by_cases hn : n = m
    · subst hn
      rw [JointState.set_self, if_pos List.mem_cons_self]
    · rw [JointState.set_of_ne _ hn, ih]
      simp [hn]

/-- Assigned states are observed on the axes that have them. -/
theorem Table.observedOn_of_assigned {σ : Type} [StateValue σ] {a : OrderedMap String σ}
    {y : JointState} {axes : List Axis}
    (hy : ∀ b ∈ axes, a.contains b.name = true → y b.name < b.card)
    (ha : ∀ b ∈ axes, (a.get? b.name).map StateValue.toInt = some (.ok (y b.name : Int)) ∨
      a.get? b.name = none) :
    Table.observedOn a axes
      = .ok (y.restrict ((axes.map Axis.name).filter fun n => a.contains n)) := by
  induction axes with
  | nil => rfl
  | cons b axes ih =>
    have hrest := ih (fun c hc => hy c (List.mem_cons_of_mem b hc))
      fun c hc => ha c (List.mem_cons_of_mem b hc)
    rw [Table.observedOn]
    rcases ha b List.mem_cons_self with hb | hb
    · obtain ⟨value, hvalue, hread⟩ := Option.map_eq_some_iff.1 hb
      have hassigned : a.contains b.name = true := by rw [OrderedMap.contains, hvalue]; rfl
      rw [hvalue]
      change (StateValue.toInt value >>= fun state => _) = _
      rw [hread]
      change (if (0 : Int) ≤ (y b.name : Int) ∧ (y b.name : Int) < b.card then _ else _) = _
      have hstate : (0 : Int) ≤ (y b.name : Int) ∧ (y b.name : Int) < b.card :=
        ⟨Int.natCast_nonneg _, by exact_mod_cast hy b List.mem_cons_self hassigned⟩
      rw [if_pos hstate, hrest]
      simp [bind, Except.bind, JointState.restrict, OrderedMap.contains, hvalue]
    · rw [hb]
      simp [hrest, OrderedMap.contains, hb]

/-- Known states are observed on the axes that have them. -/
theorem Table.observedOn_eq_ok {σ : Type} [StateValue σ] {a : OrderedMap String σ} {y : JointState}
    {axes : List Axis} (hy : InRange axes y)
    (ha : ∀ b ∈ axes, (a.get? b.name).map StateValue.toInt = some (.ok (y b.name : Int)) ∨
      a.get? b.name = none) :
    Table.observedOn a axes
      = .ok (y.restrict ((axes.map Axis.name).filter fun n => a.contains n)) :=
  observedOn_of_assigned (fun b hb _ => hy b hb) ha

variable {L : Type} [WeightScale W] [WeightScale L] [LogConversion W L]

namespace MaxMarginalSet

/-- What is left of a factor once its known variables are at their states. -/
structure RestOf (axes : List Axis) (f : Factor W L) (known : Finset String) (y : JointState)
    (rest : Factor W L) : Prop where
  /-- The axes that are left. -/
  within : rest.scope.Within axes
  /-- The variables that are left. -/
  mem_names : ∀ {v}, v ∈ rest.names ↔ v ∈ f.vars ∧ v ∉ known
  /-- Weights are those of the factor at the known states. -/
  weight_eq : ∀ {x z : JointState}, InRange rest.scope.axes x →
    (∀ v ∈ f.vars, v ∈ known → z v = y v) → (∀ v ∈ rest.names, z v = x v) →
    rest.weightAt x = f.weightAt z

section Decode

variable [Semifield W] [LinearOrder W] [ExactScale W] [ExactLog W L] {axes : List Axis}
  {f rest : Factor W L} {fixed : OrderedMap String Int} {x y : JointState} {known : Finset String}

/-- Putting in what is fixed leaves the rest. -/
theorem exists_rest (hin : f.scope.Within axes) (hy : InRange axes y)
    (hknown : ∀ v ∈ f.vars, v ∈ known → fixed.get? v = some (y v : Int))
    (hfree : ∀ v ∈ f.vars, v ∉ known → fixed.get? v = none) :
    ∃ rest, f.conditional fixed = .ok rest ∧ RestOf axes f known y rest := by
  have hmem : ∀ {v}, v ∈ f.scope.axes.map Axis.name ↔ v ∈ f.vars := fun {v} =>
    Factor.mem_vars.symm
  have hcontains : ∀ {v}, v ∈ f.vars → (fixed.contains v = true ↔ v ∈ known) := by
    intro v hv
    by_cases hk : v ∈ known
    · simp [OrderedMap.contains, hknown v hv hk, hk]
    · simp [OrderedMap.contains, hfree v hv hk, hk]
  have hobserved := Table.observedOn_eq_ok (a := fixed) (hin.inRange hy) fun b hb => by
    have hb' : b.name ∈ f.vars := hmem.1 (List.mem_map_of_mem hb)
    by_cases hk : b.name ∈ known
    · exact Or.inl (congrArg (Option.map StateValue.toInt) (hknown _ hb' hk))
    · exact Or.inr (hfree _ hb' hk)
  obtain ⟨rest, hrest, hscope, hweight⟩ := f.conditional_spec hobserved
  have hnames : ∀ {v}, v ∈ rest.names ↔ v ∈ f.vars ∧ v ∉ known := by
    intro v
    rw [Factor.names, hscope, Scope.mem_names_keep, ← Factor.names, ← Factor.mem_vars]
    refine and_congr_right fun hv => ?_
    rw [← hcontains hv]
    simp
  refine ⟨rest, hrest, hscope ▸ hin.keep _, hnames, fun {x z} hx hzy hzx => ?_⟩
  rw [hweight x hx]
  refine f.reads_weightAt _ _ fun v hv => ?_
  rw [JointState.observe_restrict]
  by_cases hk : v ∈ known
  · rw [if_pos (List.mem_filter.2 ⟨hmem.2 hv, (hcontains hv).2 hk⟩), hzy v hv hk]
  · rw [if_neg fun hc => hk ((hcontains hv).1 (List.mem_filter.1 hc).2), hzx v (hnames.2 ⟨hv, hk⟩)]

/-- The best entry of the rest is best for the factor among the joint states that agree with what
is known. -/
theorem RestOf.exists_best (h : RestOf axes f known y rest) (hd : (axes.map Axis.name).Nodup)
    (hpos : ∀ a ∈ axes, 0 < a.card) (hy : InRange axes y) :
    ∃ x, rest.argmax = .ok (x.restrict rest.names) ∧
      InRange axes (splice rest.names.toFinset x y) ∧
      ∀ z, InRange axes z → (∀ v ∈ f.vars, v ∈ known → z v = y v) →
        f.weightAt z ≤ f.weightAt (splice rest.names.toFinset x y) := by
  obtain ⟨x, hx, hxin, hbest⟩ := rest.argmax_spec fun a ha => hpos a (h.within a ha)
  refine ⟨x, hx, h.within.inRange_splice hd hxin hy, fun z hz hzy => ?_⟩
  have hz' : InRange rest.scope.axes z := h.within.inRange hz
  have hleft : rest.weightAt z = f.weightAt z := h.weight_eq hz' hzy fun _ _ => rfl
  have hright : rest.weightAt x = f.weightAt (splice rest.names.toFinset x y) :=
    h.weight_eq hxin
      (fun v _ hk => if_neg fun hn => (h.mem_names.1 (List.mem_toFinset.1 hn)).2 hk)
      fun v hv => if_pos (List.mem_toFinset.2 hv)
  rw [← hleft, ← hright]
  exact hbest z hz'

/-- Decoding a factor fixes its variables that were not fixed, at states that are best among those
that agree with what was fixed. -/
theorem decode_spec {m : MaxMarginalSet W L} (hd : (axes.map Axis.name).Nodup)
    (hpos : ∀ a ∈ axes, 0 < a.card) {i : ℕ} (hf : m.factors[i]? = some f)
    (hin : f.scope.Within axes) (hy : InRange axes y) (known : Finset String)
    (hknown : ∀ v ∈ f.vars, v ∈ known → fixed.get? v = some (y v : Int))
    (hfree : ∀ v ∈ f.vars, v ∉ known → fixed.get? v = none) :
    ∃ fixed' y', m.decode fixed (i : Int) = .ok fixed' ∧ InRange axes y' ∧
      (∀ v, v ∉ f.vars ∨ v ∈ known → y' v = y v) ∧
      (∀ v ∈ f.vars, fixed'.get? v = some (y' v : Int)) ∧
      (∀ v, v ∉ f.vars → fixed'.get? v = fixed.get? v) ∧
      ∀ z, InRange axes z → (∀ v ∈ f.vars, v ∈ known → z v = y v) →
        f.weightAt z ≤ f.weightAt y' := by
  obtain ⟨rest, hrest, hspec⟩ := exists_rest hin hy hknown hfree
  have hdecode : m.decode fixed (i : Int) = if rest.names.isEmpty then .ok fixed else
      rest.argmax >>= fun best =>
        .ok (fixed.insertAll (best.map fun e => (e.1, (e.2 : Int)))) := by
    rw [decode, elementAt_eq_ok hf]
    change (f.conditional fixed >>= fun rest => _) = _
    rw [hrest]
    rfl
  by_cases hdone : rest.names.isEmpty = true
  · have hall : ∀ v ∈ f.vars, v ∈ known := by
      intro v hv
      by_contra hk
      have hin' := hspec.mem_names.2 ⟨hv, hk⟩
      rw [List.isEmpty_iff.1 hdone] at hin'
      exact List.not_mem_nil hin'
    rw [if_pos hdone] at hdecode
    exact ⟨fixed, y, hdecode, hy, fun _ _ => rfl, fun v hv => hknown v hv (hall v hv),
      fun _ _ => rfl, fun z _ hzy => le_of_eq
        (f.reads_weightAt z y fun v hv => hzy v hv (hall v hv))⟩
  · obtain ⟨x, hx, hy'in, hbest⟩ := hspec.exists_best hd hpos hy
    have hnew : ∀ {v}, v ∈ rest.names → splice rest.names.toFinset x y v = x v := fun hn =>
      if_pos (List.mem_toFinset.2 hn)
    have hold : ∀ {v}, v ∉ rest.names → splice rest.names.toFinset x y v = y v := fun hn =>
      if_neg fun hn' => hn (List.mem_toFinset.1 hn')
    have hkeys : (rest.names.map fun n => (n, (x n : Int))).map Prod.fst = rest.names := by
      simp [Function.comp_def]
    rw [if_neg hdone, hx] at hdecode
    refine ⟨fixed.insertAll (rest.names.map fun n => (n, (x n : Int))), _, ?_, hy'in,
      fun v hv => ?_, fun v hv => ?_, fun v hv => ?_, hbest⟩
    · rw [hdecode]
      change Except.ok (fixed.insertAll ((x.restrict rest.names).map fun e => (e.1, (e.2 : Int))))
        = _
      rw [JointState.restrict, List.map_map]
      rfl
    · exact hold fun hn => hv.elim (fun h => h (hspec.mem_names.1 hn).1) (hspec.mem_names.1 hn).2
    · by_cases hn : v ∈ rest.names
      · rw [OrderedMap.get?_insertAll_of_mem (f := fun n => (x n : Int)) hn, hnew hn]
      · rw [OrderedMap.get?_insertAll_of_notMem (hkeys.symm ▸ hn), hold hn]
        refine hknown v hv ?_
        by_contra hk
        exact hn (hspec.mem_names.2 ⟨hv, hk⟩)
    · exact OrderedMap.get?_insertAll_of_notMem
        (hkeys.symm ▸ fun hn => hv (hspec.mem_names.1 hn).1)

end Decode

/-- The joint state that an assignment stands for. -/
def stateOf (a : OrderedMap String Int) : JointState := fun n => ((a.get? n).getD 0).toNat

variable [LinearOrder W]

/-- An assignment that is best for a graph. -/
structure BestFor (g : FactorGraph W L) (a : OrderedMap String Int) : Prop where
  /-- Every free variable is assigned one of its states. -/
  assigned : ∀ n ∈ g.freeNames, ∃ s : ℕ, a.get? n = some (s : Int) ∧ s < g.stateCountOf n
  /-- Observed variables keep their states, and nothing else is assigned. -/
  observed : ∀ n, n ∉ g.freeNames → a.get? n = g.conditioned.get? n
  /-- No joint state of the free variables weighs more. -/
  best : ∀ x, InRange g.freeAxes x → g.jointWeightAt x ≤ g.jointWeightAt (stateOf a)

variable {g : FactorGraph W L} {a : OrderedMap String Int} {y : JointState}

/-- A best assignment comes from a joint state of largest weight. -/
theorem BestFor.of_state (hg : g.Sound) (hy : InRange g.freeAxes y)
    (hassigned : ∀ n ∈ g.freeNames, a.get? n = some (y n : Int))
    (hobserved : ∀ n, n ∉ g.freeNames → a.get? n = g.conditioned.get? n)
    (hbest : ∀ x, InRange g.freeAxes x → g.jointWeightAt x ≤ g.jointWeightAt y) :
    BestFor g a where
  assigned n hn := ⟨y n, hassigned n hn, hy ⟨n, g.stateCountOf n⟩
    (FactorGraph.mem_freeAxes.2 ⟨hn, rfl⟩)⟩
  observed := hobserved
  best x hx := by
    have hsame : g.jointWeightAt (stateOf a) = g.jointWeightAt y :=
      hg.reads_jointWeightAt _ _ fun n hn => by
        rw [stateOf, hassigned n (List.mem_toFinset.1 hn)]
        exact Int.toNat_natCast (y n)
    rw [hsame]
    exact hbest x hx

variable [Semifield W] [IsStrictOrderedRing W] [CanonicallyOrderedAdd W]

/-- The weight of a best assignment is the largest joint weight. -/
theorem BestFor.weight_eq (h : BestFor g a) (hg : g.Sound) (x : JointState) :
    g.jointWeightAt (stateOf a) = g.marginalOver .max ∅ x := by
  have hin : InRange g.freeAxes (stateOf a) := by
    intro b hb
    obtain ⟨hn, hcard⟩ := FactorGraph.mem_freeAxes.1 hb
    obtain ⟨s, hs, hlt⟩ := h.assigned b.name hn
    rw [stateOf, hs, hcard]
    exact hlt
  have hne : (variants g.freeAxes (g.freeNames.toFinset \ ∅) (stateOf a)).map g.jointWeightAt
      ≠ [] := fun he =>
    List.ne_nil_of_mem (self_mem_variants hg.freeNames_nodup hin) (List.map_eq_nil_iff.1 he)
  obtain ⟨y, hy, hyw⟩ := List.mem_map.1 (Mode.collect_max_mem hne)
  rw [hg.marginalOver_empty .max x (stateOf a)]
  refine le_antisymm (hg.jointWeightAt_le hin _) ?_
  rw [FactorGraph.marginalOver, Mode.collapse, ← hyw]
  exact h.best y (inRange_of_mem_variants hg.freeNames_nodup hin hy)

end MaxMarginalSet

namespace CliqueTree

open MaxMarginalSet

variable [Semifield W] [LinearOrder W] {g : FactorGraph W L} {t : CliqueTree W L} {roots : List Int}
  {ms : List (Factor W L)} {before : List ℕ} {fixed : OrderedMap String Int} {y : JointState}

/-- What is fixed after some cliques were decoded. -/
structure Decoded (g : FactorGraph W L) (t : CliqueTree W L) (before : List ℕ)
    (fixed : OrderedMap String Int) (y : JointState) : Prop where
  /-- Fixed states are states. -/
  inRange : InRange g.freeAxes y
  /-- The variables of the decoded cliques are fixed. -/
  fixed_eq : ∀ {v}, v ∈ before.toFinset.biUnion t.scopeOf → fixed.get? v = some (y v : Int)
  /-- No other variable is fixed, except for the observed ones. -/
  other_eq : ∀ {v}, v ∉ before.toFinset.biUnion t.scopeOf →
    fixed.get? v = g.conditioned.get? v
  /-- What is fixed can be completed to a joint state of largest weight. -/
  optimal : ∃ z, InRange g.freeAxes z ∧ (∀ v ∈ before.toFinset.biUnion t.scopeOf, z v = y v) ∧
    ∀ x, InRange g.freeAxes x → ∏ j ∈ Finset.range t.size, t.weightOf j x
      ≤ ∏ j ∈ Finset.range t.size, t.weightOf j z

variable [IsStrictOrderedRing W] [CanonicallyOrderedAdd W]

/-- Before anything is decoded, only the observed variables are fixed. -/
theorem Decoded.start (hbuilt : Built g t) (hg : g.Sound) :
    Decoded g t [] g.conditioned JointState.origin := by
  have horigin := inRange_origin hg.card_pos
  refine ⟨horigin, fun hv => by simp at hv, fun _ => rfl, ?_⟩
  obtain ⟨z, hz, -, hattained⟩ := exists_eq_cliqueMarginal t.scopeOf t.weightOf
    hg.freeNames_nodup horigin (Finset.range t.size) ∅
  refine ⟨z, hz, fun v hv => by simp at hv, fun x hx => ?_⟩
  have hnumber := reads_cliqueMarginal .max t.reads_weightOf hbuilt.wellBuilt.scopeOf_subset
    (Finset.range t.size) ∅ JointState.origin x fun n hn => absurd hn (Finset.notMem_empty n)
  rw [← hattained, hnumber]
  exact prod_le_cliqueMarginal .max hg.freeNames_nodup hx (Finset.range t.size) ∅

variable [ExactScale W] [ExactLog W L]

/-- Decoding the next clique in traceback order keeps a completion of largest weight. -/
theorem Decoded.step (h : Decoded g t before fixed y) (hbuilt : Built g t) (hg : g.Sound)
    {m : MaxMarginalSet W L} (hm : Passed .max g.freeAxes t roots m.factors) {i : ℕ}
    (hi : i < t.size) (hlt : ∀ k ∈ before, k < t.size)
    (hstep : (∀ k ∈ before, ¬ t.graph.Reachable k i) ∨
      ∃ p ∈ before, t.graph.Adj p i ∧ ∀ k ∈ before, t.graph.Reachable k i →
        OnSide t.graph p i k) :
    ∃ fixed' y', m.decode fixed (i : Int) = .ok fixed' ∧
      Decoded g t (before ++ [i]) fixed' y' := by
  have hd := hg.freeNames_nodup
  obtain ⟨f, hf, hfinal⟩ := hm.marginal hi
  have hvars : f.vars = t.scopeOf i := hfinal.vars_eq
  have hfree : ∀ v ∈ f.vars, v ∈ g.freeNames := fun v hv => by
    rw [hvars] at hv
    exact FactorGraph.map_name_freeAxes g ▸ hbuilt.wellBuilt.scopeOf_subset i v hv
  obtain ⟨fixed', y', hdecode, hy', hkept, hnew, hother, hbest⟩ :=
    decode_spec hd hg.card_pos hf (hfinal.within hbuilt.wellBuilt) h.inRange
      (before.toFinset.biUnion t.scopeOf) (fun v _ hk => h.fixed_eq hk) fun v hv hk => by
        rw [h.other_eq hk, FactorGraph.get?_conditioned (hfree v hv)]
  obtain ⟨z, hz, hzy, hzbest⟩ := h.optimal
  obtain ⟨back, hback, hbehind⟩ := hbuilt.wellBuilt.forest.exists_behind hi hlt hstep
  have hknown : ∀ v ∈ before.toFinset.biUnion t.scopeOf, z v = y' v := fun v hv => by
    rw [hzy v hv, hkept v (Or.inr hv)]
  obtain ⟨z', hz', hz'y, hgain⟩ := hbehind.exists_exchange hd t.reads_weightOf
    hbuilt.wellBuilt.scopeOf_subset (fun k hk => Finset.mem_range.2
      (hbuilt.wellBuilt.forest.lt_of_reachable hi
        ((hbuilt.wellBuilt.forest.mem_treeOf hi).1 hk))) hback hy' hz hknown (by
      have hle := hbest z hz fun v _ hk => hzy v hk
      rw [hfinal.2 z hz, hfinal.2 y' hy'] at hle
      exact hle)
  have hmem : ∀ {v}, v ∈ (before ++ [i]).toFinset.biUnion t.scopeOf ↔
      v ∈ before.toFinset.biUnion t.scopeOf ∨ v ∈ t.scopeOf i := by
    intro v
    simp only [Finset.mem_biUnion, List.mem_toFinset, List.mem_append, List.mem_singleton]
    constructor
    · rintro ⟨k, hk | rfl, hv⟩
      · exact Or.inl ⟨k, hk, hv⟩
      · exact Or.inr hv
    · rintro (⟨k, hk, hv⟩ | hv)
      · exact ⟨k, Or.inl hk, hv⟩
      · exact ⟨i, Or.inr rfl, hv⟩
  refine ⟨fixed', y', hdecode, hy', fun {v} hv => ?_, fun {v} hv => ?_, z', hz', fun v hv => ?_,
    fun x hx => (hzbest x hx).trans hgain⟩
  · by_cases hvi : v ∈ f.vars
    · exact hnew v hvi
    · have hk := (hmem.1 hv).resolve_right fun hvi' => hvi (hvars ▸ hvi')
      rw [hother v hvi, h.fixed_eq hk, hkept v (Or.inl hvi)]
  · rw [hmem, not_or] at hv
    rw [hother v fun hvi => hv.2 (hvars ▸ hvi), h.other_eq hv.1]
  · exact hz'y v (hmem.1 hv)

/-- Decoding along the traceback order never fails. -/
theorem Decoded.foldlM (hbuilt : Built g t) (hg : g.Sound) {m : MaxMarginalSet W L}
    (hm : Passed .max g.freeAxes t roots m.factors) {rest : List ℕ}
    (h : Decoded g t before fixed y) (horder : Traceback t.graph (before ++ rest))
    (hlt : ∀ k ∈ before ++ rest, k < t.size) :
    ∃ fixed' y', (rest.map Int.ofNat).foldlM m.decode fixed = .ok fixed' ∧
      Decoded g t (before ++ rest) fixed' y' := by
  induction rest generalizing before fixed y with
  | nil => exact ⟨fixed, y, rfl, by rw [List.append_nil]; exact h⟩
  | cons i rest ih =>
    obtain ⟨-, hstep⟩ := horder before i rest rfl
    obtain ⟨fixed₁, y₁, hdecode, h₁⟩ := h.step hbuilt hg hm
      (hlt i (List.mem_append_right _ List.mem_cons_self))
      (fun k hk => hlt k (List.mem_append_left _ hk)) hstep
    have hlist : before ++ i :: rest = before ++ [i] ++ rest := by simp
    rw [hlist] at horder hlt ⊢
    obtain ⟨fixed₂, y₂, hrest, h₂⟩ := ih h₁ horder hlt
    refine ⟨fixed₂, y₂, ?_, h₂⟩
    rw [List.map_cons, List.foldlM_cons]
    change m.decode fixed (i : Int) >>= _ = _
    rw [hdecode]
    exact hrest

/-- The max-marginals of all cliques, decoded in traceback order, give a best assignment. -/
theorem bestAssignment_of_passed (hbuilt : Built g t) (hg : g.Sound)
    (h : Passed .max g.freeAxes t roots ms) :
    ∃ a, MaxMarginalSet.bestAssignment
      ⟨ms, g.conditioned, (t.tracebackOrder roots).map Int.ofNat⟩ = .ok a ∧ BestFor g a := by
  obtain ⟨a, y, ha, hdecoded⟩ := Decoded.foldlM hbuilt hg
    (m := ⟨ms, g.conditioned, (t.tracebackOrder roots).map Int.ofNat⟩) h
    (Decoded.start hbuilt hg) (traceback_tracebackOrder hbuilt.wellBuilt roots)
    fun k hk => (mem_tracebackOrder hbuilt.wellBuilt roots).1 hk
  rw [List.nil_append] at hdecoded
  have hall : ∀ v, v ∈ (t.tracebackOrder roots).toFinset.biUnion t.scopeOf ↔
      v ∈ g.freeNames := by
    intro v
    have hset : (t.tracebackOrder roots).toFinset = Finset.range t.size := by
      ext i
      rw [List.mem_toFinset, mem_tracebackOrder hbuilt.wellBuilt, Finset.mem_range]
    rw [hset, hbuilt.biUnion_scopeOf hg, List.mem_toFinset]
  refine ⟨a, ha, BestFor.of_state hg hdecoded.inRange
    (fun n hn => hdecoded.fixed_eq ((hall n).2 hn))
    (fun n hn => hdecoded.other_eq fun hin => hn ((hall n).1 hin)) fun x hx => ?_⟩
  obtain ⟨z, hz, hzy, hbest⟩ := hdecoded.optimal
  have hsame : g.jointWeightAt y = g.jointWeightAt z :=
    hg.reads_jointWeightAt _ _ fun n hn => (hzy n ((hall n).2 (List.mem_toFinset.1 hn))).symm
  rw [hsame, ← hbuilt.prod_weightOf_eq hg hx, ← hbuilt.prod_weightOf_eq hg hz]
  exact hbest x hx

end CliqueTree

end ExactInference
