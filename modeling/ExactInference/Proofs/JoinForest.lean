import Mathlib.Combinatorics.SimpleGraph.Acyclic
import ExactInference.Proofs.Collect

/-!
# Join forests

Numbered cliques hold sets of variables and are joined by edges without a cycle, so that the cliques
which hold one variable stay connected along the edges. Removing an edge splits a tree into two
sides. The sides behind the neighbors of a clique are disjoint, and two sides only share variables
that both ends of the edge hold. From this follows how the marginal of everything on one side of an
edge is made from the marginals behind the other neighbors, which is what a message has to compute.
-/

namespace ExactInference

/-- What a start has and what every edge hands on, all reachable vertices have. -/
theorem reachable_induct {V : Type} {G : SimpleGraph V} {P : V → Prop} {a i : V}
    (h : G.Reachable a i) (base : P a) (step : ∀ u w, P u → G.Adj u w → P w) : P i := by
  obtain ⟨p⟩ := h
  induction p with
  | nil => exact base
  | cons hadj _ ih => exact ih (step _ _ base hadj)

/-- The vertices on the side of `a` when the edge between `a` and `b` is removed. -/
def OnSide (G : SimpleGraph ℕ) (a b i : ℕ) : Prop := (G.deleteEdges {s(a, b)}).Reachable a i

namespace OnSide

variable {G : SimpleGraph ℕ} {a b c d i u w : ℕ}

theorem self (G : SimpleGraph ℕ) (a b : ℕ) : OnSide G a b a := SimpleGraph.Reachable.refl _

/-- A side is left only along the removed edge. -/
theorem step (h : OnSide G a b u) (hadj : G.Adj u w) (hne : s(u, w) ≠ s(a, b)) : OnSide G a b w :=
  h.trans (SimpleGraph.Adj.reachable (SimpleGraph.deleteEdges_adj.2 ⟨hadj, hne⟩))

theorem reachable (h : OnSide G a b i) : G.Reachable a i :=
  h.mono (SimpleGraph.deleteEdges_le _)

/-- What the start has and what every edge other than the removed one hands on, the whole side has.
-/
theorem induct {P : ℕ → Prop} (h : OnSide G a b i) (base : P a)
    (step : ∀ u w, P u → G.Adj u w → s(u, w) ≠ s(a, b) → P w) : P i :=
  reachable_induct h base fun u w hu hadj =>
    step u w hu (SimpleGraph.deleteEdges_adj.1 hadj).1 (SimpleGraph.deleteEdges_adj.1 hadj).2

/-- In a forest the other end of the removed edge is on the other side. -/
theorem not_other (hG : G.IsAcyclic) (hadj : G.Adj a b) : ¬ OnSide G a b b :=
  SimpleGraph.isAcyclic_iff_forall_adj_isBridge.1 hG hadj

theorem not_both (hG : G.IsAcyclic) (hadj : G.Adj a b) (h : OnSide G a b i) : ¬ OnSide G b a i := by
  intro h'
  refine not_other hG hadj (h.trans ?_)
  have h' : (G.deleteEdges {s(b, a)}).Reachable b i := h'
  rw [Sym2.eq_swap] at h'
  exact h'.symm

/-- One side consists of its end and of what lies behind the other neighbors of that end. -/
theorem iff_behind (hG : G.IsAcyclic) (hadj : G.Adj a b) :
    OnSide G a b i ↔ i = a ∨ ∃ c, G.Adj a c ∧ c ≠ b ∧ OnSide G c a i := by
  constructor
  · intro h
    refine h.induct (P := fun i => i = a ∨ ∃ c, G.Adj a c ∧ c ≠ b ∧ OnSide G c a i) (Or.inl rfl)
      fun u w hu huw hne => ?_
    rcases hu with rfl | ⟨c, hac, hcb, hu⟩
    · exact Or.inr ⟨w, huw, fun hw => hne (by rw [hw]), self G w u⟩
    · by_cases he : s(u, w) = s(c, a)
      · rcases Sym2.eq_iff.1 he with ⟨-, rfl⟩ | ⟨-, rfl⟩
        · exact Or.inl rfl
        · exact Or.inr ⟨w, hac, hcb, self G w a⟩
      · exact Or.inr ⟨c, hac, hcb, hu.step huw he⟩
  · rintro (rfl | ⟨c, hac, hcb, h⟩)
    · exact self G i b
    · have hstart : OnSide G a b c := (self G a b).step hac fun he => by
        rcases Sym2.eq_iff.1 he with ⟨-, hc⟩ | ⟨rfl, rfl⟩
        · exact hcb hc
        · exact hac.ne rfl
      have hboth : OnSide G a b i ∧ OnSide G c a i := by
        refine h.induct (P := fun j => OnSide G a b j ∧ OnSide G c a j) ⟨hstart, self G c a⟩
          fun u w hu huw hne => ?_
        have hw : OnSide G c a w := hu.2.step huw hne
        refine ⟨hu.1.step huw fun he => ?_, hw⟩
        -- The edge to `b` has `a` as an end, which is not behind `c`.
        rcases Sym2.eq_iff.1 he with ⟨rfl, -⟩ | ⟨-, rfl⟩
        · exact not_other hG hac.symm hu.2
        · exact not_other hG hac.symm hw
      exact hboth.1

/-- What lies behind one neighbor does not lie behind another one. -/
theorem behind_unique (hG : G.IsAcyclic) (hc : G.Adj a c) (hd : G.Adj a d) (hic : OnSide G c a i)
    (hid : OnSide G d a i) : c = d := by
  by_contra hne
  exact not_both hG hc.symm hic ((iff_behind hG hc).2 (Or.inr ⟨d, hd, fun h => hne h.symm, hid⟩))

/-- A tree consists of a clique and of what lies behind its neighbors. -/
theorem reachable_iff (G : SimpleGraph ℕ) (a i : ℕ) :
    G.Reachable a i ↔ i = a ∨ ∃ c, G.Adj a c ∧ OnSide G c a i := by
  constructor
  · intro h
    refine reachable_induct (P := fun i => i = a ∨ ∃ c, G.Adj a c ∧ OnSide G c a i) h (Or.inl rfl)
      fun u w hu huw => ?_
    rcases hu with rfl | ⟨c, hac, hu⟩
    · exact Or.inr ⟨w, huw, self G w u⟩
    · by_cases he : s(u, w) = s(c, a)
      · rcases Sym2.eq_iff.1 he with ⟨-, rfl⟩ | ⟨-, rfl⟩
        · exact Or.inl rfl
        · exact Or.inr ⟨w, hac, self G w a⟩
      · exact Or.inr ⟨c, hac, hu.step huw he⟩
  · rintro (rfl | ⟨c, hac, h⟩)
    · exact SimpleGraph.Reachable.refl _
    · exact hac.reachable.trans h.reachable

open Classical in
/-- The side behind a neighbor lies within the side of a clique, and the clique is not behind it. -/
theorem card_behind_lt {R : Finset ℕ} (hG : G.IsAcyclic) (ha : a ∈ R) (hadj : G.Adj a b)
    (hac : G.Adj a c) (hcb : c ≠ b) :
    (R.filter (OnSide G c a)).card < (R.filter (OnSide G a b)).card := by
  refine Finset.card_lt_card ⟨fun i hi => ?_, fun hsub => ?_⟩
  · obtain ⟨hiR, hi⟩ := Finset.mem_filter.1 hi
    exact Finset.mem_filter.2 ⟨hiR, (iff_behind hG hadj).2 (Or.inr ⟨c, hac, hcb, hi⟩)⟩
  · have hself := hsub (Finset.mem_filter.2 ⟨ha, self G a b⟩)
    exact not_other hG hac.symm (Finset.mem_filter.1 hself).2

open Classical in
/-- Induction over the edges of a finite forest: from the edges behind an edge to the edge. -/
theorem edge_induct {R : Finset ℕ} {P : ℕ → ℕ → Prop} (hG : G.IsAcyclic)
    (hin : ∀ {a b}, G.Adj a b → a ∈ R)
    (step : ∀ {a b}, G.Adj a b → (∀ {c}, G.Adj a c → c ≠ b → P c a) → P a b)
    (hadj : G.Adj a b) : P a b := by
  induction hn : (R.filter (OnSide G a b)).card using Nat.strong_induction_on
    generalizing a b with
  | _ n ih =>
    refine step hadj fun hac hcb => ih _ ?_ hac.symm rfl
    rw [← hn]
    exact card_behind_lt hG (hin hadj) hadj hac hcb

end OnSide

/-- The edges between cliques that both hold a variable. -/
def holding (G : SimpleGraph ℕ) (scope : ℕ → Finset String) (v : String) : SimpleGraph ℕ where
  Adj i j := G.Adj i j ∧ v ∈ scope i ∧ v ∈ scope j
  symm := ⟨fun _ _ h => ⟨h.1.symm, h.2.2, h.2.1⟩⟩
  loopless := ⟨fun _ h => h.1.ne rfl⟩

/-- Cliques below a number form a join forest: their edges make no cycle, and the cliques that hold
one variable are connected along edges between such cliques. -/
structure IsJoinForest (size : ℕ) (G : SimpleGraph ℕ) (scope : ℕ → Finset String) : Prop where
  /-- Edges join cliques. -/
  lt_size : ∀ {i j}, G.Adj i j → i < size
  /-- There is no cycle. -/
  acyclic : G.IsAcyclic
  /-- The running intersection property. -/
  connected : ∀ v i j, i < size → j < size → v ∈ scope i → v ∈ scope j →
    (holding G scope v).Reachable i j

open Classical in
/-- The neighbors of a clique. -/
noncomputable def neighborSet (size : ℕ) (G : SimpleGraph ℕ) (a : ℕ) : Finset ℕ :=
  (Finset.range size).filter (G.Adj a)

open Classical in
/-- The cliques on the side of `a` when the edge between `a` and `b` is removed. -/
noncomputable def side (size : ℕ) (G : SimpleGraph ℕ) (a b : ℕ) : Finset ℕ :=
  (Finset.range size).filter (OnSide G a b)

open Classical in
/-- The cliques of the tree that a clique belongs to. -/
noncomputable def treeOf (size : ℕ) (G : SimpleGraph ℕ) (a : ℕ) : Finset ℕ :=
  (Finset.range size).filter (G.Reachable a)

theorem lt_of_mem_side {size : ℕ} {G : SimpleGraph ℕ} {a b i : ℕ} (h : i ∈ side size G a b) :
    i < size := by
  simp only [side, Finset.mem_filter, Finset.mem_range] at h
  exact h.1

namespace IsJoinForest

variable {size : ℕ} {G : SimpleGraph ℕ} {scope : ℕ → Finset String} {a b c d i j : ℕ} {v : String}

/-- Induction over the edges of a join forest, from the edges behind an edge to the edge. -/
theorem edge_induct (h : IsJoinForest size G scope) {P : ℕ → ℕ → Prop}
    (step : ∀ {a b}, G.Adj a b → (∀ {c}, G.Adj a c → c ≠ b → P c a) → P a b)
    (hadj : G.Adj a b) : P a b :=
  OnSide.edge_induct h.acyclic (fun hab => Finset.mem_range.2 (h.lt_size hab)) step hadj

theorem lt_of_reachable (h : IsJoinForest size G scope) (ha : a < size) (hr : G.Reachable a i) :
    i < size :=
  reachable_induct (P := (· < size)) hr ha fun _ _ _ hadj => h.lt_size hadj.symm

theorem mem_neighborSet (h : IsJoinForest size G scope) : b ∈ neighborSet size G a ↔ G.Adj a b := by
  simp only [neighborSet, Finset.mem_filter, Finset.mem_range, and_iff_right_iff_imp]
  exact fun hadj => h.lt_size hadj.symm

theorem mem_side (h : IsJoinForest size G scope) (ha : a < size) :
    i ∈ side size G a b ↔ OnSide G a b i := by
  simp only [side, Finset.mem_filter, Finset.mem_range, and_iff_right_iff_imp]
  exact fun hs => h.lt_of_reachable ha hs.reachable

theorem mem_treeOf (h : IsJoinForest size G scope) (ha : a < size) :
    i ∈ treeOf size G a ↔ G.Reachable a i := by
  simp only [treeOf, Finset.mem_filter, Finset.mem_range, and_iff_right_iff_imp]
  exact fun hr => h.lt_of_reachable ha hr

/-- Cliques that hold one variable belong to one tree. -/
theorem reachable_of_shared (h : IsJoinForest size G scope) (hi : i < size) (hj : j < size)
    (hvi : v ∈ scope i) (hvj : v ∈ scope j) : G.Reachable i j :=
  (h.connected v i j hi hj hvi hvj).mono fun _ _ (hadj : (holding G scope v).Adj _ _) => hadj.1

/-- A variable on both sides of an edge is held by both ends of the edge. -/
theorem shared_of_crossing (h : IsJoinForest size G scope) (hi : i < size) (hj : j < size)
    (hside : OnSide G a b i) (hout : ¬ OnSide G a b j) (hvi : v ∈ scope i) (hvj : v ∈ scope j) :
    v ∈ scope a ∧ v ∈ scope b := by
  by_contra hno
  refine hout (reachable_induct (P := OnSide G a b) (h.connected v i j hi hj hvi hvj) hside
    fun u w hu hadj => hu.step hadj.1 fun he => hno ?_)
  rcases Sym2.eq_iff.1 he with ⟨rfl, rfl⟩ | ⟨rfl, rfl⟩
  · exact hadj.2
  · exact hadj.2.symm

/-- One side consists of its end and of the sides behind the other neighbors. -/
theorem side_eq (h : IsJoinForest size G scope) (hadj : G.Adj a b) :
    side size G a b
      = insert a (((neighborSet size G a).erase b).biUnion fun c => side size G c a) := by
  ext i
  rw [h.mem_side (h.lt_size hadj), OnSide.iff_behind h.acyclic hadj, Finset.mem_insert,
    Finset.mem_biUnion]
  refine or_congr_right ⟨?_, ?_⟩
  · rintro ⟨c, hac, hcb, hi⟩
    exact ⟨c, Finset.mem_erase.2 ⟨hcb, h.mem_neighborSet.2 hac⟩,
      (h.mem_side (h.lt_size hac.symm)).2 hi⟩
  · rintro ⟨c, hc, hi⟩
    obtain ⟨hcb, hc⟩ := Finset.mem_erase.1 hc
    have hac := h.mem_neighborSet.1 hc
    exact ⟨c, hac, hcb, (h.mem_side (h.lt_size hac.symm)).1 hi⟩

/-- A variable behind a neighbor that occurs anywhere else occurs in both ends of the edge. -/
theorem shared_of_side (h : IsJoinForest size G scope) (hadj : G.Adj a b) {i j : ℕ} {v : String}
    (hi : i ∈ side size G b a) (hj : j < size) (hout : j ∉ side size G b a) (hvi : v ∈ scope i)
    (hvj : v ∈ scope j) : v ∈ scope b ∧ v ∈ scope a :=
  h.shared_of_crossing (lt_of_mem_side hi) hj ((h.mem_side (h.lt_size hadj.symm)).1 hi)
    (fun ho => hout ((h.mem_side (h.lt_size hadj.symm)).2 ho)) hvi hvj

theorem notMem_side (h : IsJoinForest size G scope) (hadj : G.Adj a b) : a ∉ side size G b a :=
  fun hi => OnSide.not_other h.acyclic hadj.symm ((h.mem_side (h.lt_size hadj.symm)).1 hi)

/-- No clique is behind two neighbors. -/
theorem side_unique (h : IsJoinForest size G scope) {c d i : ℕ} (hc : G.Adj a c) (hd : G.Adj a d)
    (hic : i ∈ side size G c a) (hid : i ∈ side size G d a) : c = d :=
  OnSide.behind_unique h.acyclic hc hd ((h.mem_side (h.lt_size hc.symm)).1 hic)
    ((h.mem_side (h.lt_size hd.symm)).1 hid)

/-- A product over a clique and the sides behind some of its neighbors. -/
theorem prod_insert_sides {M : Type} [CommMonoid M] (h : IsJoinForest size G scope)
    {near : Finset ℕ} (hnear : ∀ c ∈ near, G.Adj a c) (f : ℕ → M) :
    ∏ i ∈ insert a (near.biUnion fun c => side size G c a), f i
      = f a * ∏ c ∈ near, ∏ i ∈ side size G c a, f i := by
  have hout : a ∉ near.biUnion fun c => side size G c a := fun hi => by
    obtain ⟨c, hc, hi⟩ := Finset.mem_biUnion.1 hi
    exact h.notMem_side (hnear c hc) hi
  rw [Finset.prod_insert hout, Finset.prod_biUnion fun c hc d hd hne =>
    Finset.disjoint_left.2 fun i hic hid => hne (h.side_unique (hnear c hc) (hnear d hd) hic hid)]

/-- A tree consists of a clique and of the sides behind its neighbors. -/
theorem treeOf_eq (h : IsJoinForest size G scope) (ha : a < size) :
    treeOf size G a = insert a ((neighborSet size G a).biUnion fun c => side size G c a) := by
  ext i
  rw [h.mem_treeOf ha, OnSide.reachable_iff, Finset.mem_insert, Finset.mem_biUnion]
  refine or_congr_right ⟨?_, ?_⟩
  · rintro ⟨c, hac, hi⟩
    exact ⟨c, h.mem_neighborSet.2 hac, (h.mem_side (h.lt_size hac.symm)).2 hi⟩
  · rintro ⟨c, hc, hi⟩
    have hac := h.mem_neighborSet.1 hc
    exact ⟨c, hac, (h.mem_side (h.lt_size hac.symm)).1 hi⟩

end IsJoinForest

section Marginal

variable {W : Type} [Semifield W] [LinearOrder W]

/-- What the product of some cliques collects over all their variables but those that are kept. -/
def cliqueMarginal (mode : Mode) (axes : List Axis) (scope : ℕ → Finset String)
    (weight : ℕ → JointState → W) (cliques : Finset ℕ) (kept : Finset String) : JointState → W :=
  mode.collapse axes (cliques.biUnion scope \ kept) fun x => ∏ i ∈ cliques, weight i x

variable [IsStrictOrderedRing W] [CanonicallyOrderedAdd W] {size : ℕ} {G : SimpleGraph ℕ}
  {scope : ℕ → Finset String} {weight : ℕ → JointState → W} {axes : List Axis} {a b : ℕ}

/-- The marginal of a clique together with the sides behind some of its neighbors is made from the
marginals of these sides. -/
theorem IsJoinForest.cliqueMarginal_insert (h : IsJoinForest size G scope) (mode : Mode)
    (hd : (axes.map Axis.name).Nodup) (hweight : ∀ i, Reads (weight i) (scope i))
    (haxes : ∀ i, ∀ n ∈ scope i, n ∈ axes.map Axis.name) (ha : a < size) {near : Finset ℕ}
    (hnear : ∀ c ∈ near, G.Adj a c) {kept : Finset String} (hkept : kept ⊆ scope a)
    {x : JointState} (hx : InRange axes x) :
    cliqueMarginal mode axes scope weight (insert a (near.biUnion fun c => side size G c a)) kept x
      = mode.collapse axes (scope a \ kept) (fun y => weight a y
          * ∏ c ∈ near, cliqueMarginal mode axes scope weight (side size G c a)
              (scope c ∩ scope a) y) x := by
  have hown : ∀ c ∈ near, (side size G c a).biUnion scope \ (scope c ∩ scope a)
      = (side size G c a).biUnion scope \ scope a := by
    intro c hc
    ext v
    simp only [Finset.mem_sdiff, Finset.mem_inter]
    refine and_congr_right fun hv => not_congr ⟨fun hs => hs.2, fun hva => ?_⟩
    obtain ⟨i, hi, hvi⟩ := Finset.mem_biUnion.1 hv
    exact h.shared_of_side (hnear c hc) hi ha (h.notMem_side (hnear c hc)) hvi hva
  have hvars : (insert a (near.biUnion fun c => side size G c a)).biUnion scope \ kept
      = (scope a \ kept) ∪ near.biUnion fun c => (side size G c a).biUnion scope \ scope a := by
    ext v
    simp only [Finset.mem_sdiff, Finset.mem_union, Finset.mem_biUnion, Finset.mem_insert]
    constructor
    · rintro ⟨⟨i, rfl | ⟨c, hc, hi⟩, hvi⟩, hk⟩
      · exact Or.inl ⟨hvi, hk⟩
      · by_cases hva : v ∈ scope a
        · exact Or.inl ⟨hva, hk⟩
        · exact Or.inr ⟨c, hc, ⟨i, hi, hvi⟩, hva⟩
    · rintro (⟨hva, hk⟩ | ⟨c, hc, ⟨i, hi, hvi⟩, hva⟩)
      · exact ⟨⟨a, Or.inl rfl, hva⟩, hk⟩
      · exact ⟨⟨i, Or.inr ⟨c, hc, hi⟩, hvi⟩, fun hk => hva (hkept hk)⟩
  have hdisjoint : Disjoint (scope a) (near.biUnion fun c =>
      (side size G c a).biUnion scope \ scope a) :=
    (Finset.disjoint_biUnion_right _ _ _).2 fun c _ => Finset.disjoint_sdiff
  rw [cliqueMarginal, hvars,
    Mode.collapse_union mode hd (hdisjoint.mono_left Finset.sdiff_subset)]
  refine Mode.collapse_congr mode fun y hy => ?_
  have hy := inRange_of_mem_variants hd hx hy
  simp only [h.prod_insert_sides hnear]
  rw [Mode.collapse_mul_left mode hd hy (hweight a) hdisjoint,
    Mode.collapse_prod mode hd near (fun c => (side size G c a).biUnion scope)
      (fun c _ => Reads.prod fun i _ => hweight i)
      (fun c _ n hn => by
        obtain ⟨i, -, hni⟩ := Finset.mem_biUnion.1 hn
        exact haxes i n hni)
      (fun c _ => Finset.sdiff_subset) (fun c hc d hd hne => ?_) hy]
  · congr 1
    refine Finset.prod_congr rfl fun c hc => ?_
    rw [cliqueMarginal, hown c hc]
  · refine Finset.disjoint_left.2 fun v hvc hvd => ?_
    obtain ⟨i, hi, hvi⟩ := Finset.mem_biUnion.1 hvc
    obtain ⟨hvd, hva⟩ := Finset.mem_sdiff.1 hvd
    obtain ⟨j, hj, hvj⟩ := Finset.mem_biUnion.1 hvd
    have hjc : j ∉ side size G c a := fun hjc =>
      hne (h.side_unique (hnear c hc) (hnear d hd) hjc hj)
    exact hva (h.shared_of_side (hnear c hc) hi (lt_of_mem_side hj) hjc hvi hvj).2

omit [IsStrictOrderedRing W] in
/-- Collecting a marginal over some of the variables that it keeps leaves the marginal that keeps
the others. -/
theorem collapse_cliqueMarginal_sdiff (mode : Mode) (hd : (axes.map Axis.name).Nodup)
    {cliques : Finset ℕ} {kept fewer : Finset String} (hfewer : fewer ⊆ kept)
    (hkept : kept ⊆ cliques.biUnion scope) :
    mode.collapse axes (kept \ fewer) (cliqueMarginal mode axes scope weight cliques kept)
      = cliqueMarginal mode axes scope weight cliques fewer :=
  Mode.collapse_sdiff mode hd hfewer hkept _

omit [IsStrictOrderedRing W] in
/-- Collecting a marginal over what it kept gives the total. -/
theorem collapse_cliqueMarginal (mode : Mode) (hd : (axes.map Axis.name).Nodup) {cliques : Finset ℕ}
    {kept : Finset String} (hkept : kept ⊆ cliques.biUnion scope) (x : JointState) :
    mode.collapse axes kept (cliqueMarginal mode axes scope weight cliques kept) x
      = cliqueMarginal mode axes scope weight cliques ∅ x := by
  have hall : mode.collapse axes (kept \ ∅) (cliqueMarginal mode axes scope weight cliques kept)
      = cliqueMarginal mode axes scope weight cliques ∅ :=
    collapse_cliqueMarginal_sdiff mode hd (Finset.empty_subset kept) hkept
  rw [Finset.sdiff_empty] at hall
  exact congrFun hall x

omit [IsStrictOrderedRing W] [CanonicallyOrderedAdd W] in
/-- A marginal looks at the variables that it keeps. -/
theorem reads_cliqueMarginal (mode : Mode) (hweight : ∀ i, Reads (weight i) (scope i))
    (haxes : ∀ i, ∀ n ∈ scope i, n ∈ axes.map Axis.name) (cliques : Finset ℕ)
    (kept : Finset String) : Reads (cliqueMarginal mode axes scope weight cliques kept) kept := by
  have hreads : Reads (cliqueMarginal mode axes scope weight cliques kept)
      (cliques.biUnion scope \ (cliques.biUnion scope \ kept)) :=
    Mode.reads_collapse mode (Reads.prod fun i (_ : i ∈ cliques) => hweight i) fun n hn => by
      obtain ⟨i, -, hni⟩ := Finset.mem_biUnion.1 hn
      exact haxes i n hni
  refine hreads.mono fun n hn => ?_
  simp only [Finset.mem_sdiff, not_and, not_not] at hn
  exact hn.2 hn.1

namespace IsJoinForest

theorem self_mem_treeOf (ha : a < size) : a ∈ treeOf size G a := by
  simp only [treeOf, Finset.mem_filter, Finset.mem_range]
  exact ⟨ha, SimpleGraph.Reachable.refl a⟩

/-- The variables of a clique are among those of its tree. -/
theorem scope_subset_tree (scope : ℕ → Finset String) (ha : a < size) :
    scope a ⊆ (treeOf size G a).biUnion scope :=
  Finset.subset_biUnion_of_mem scope (self_mem_treeOf ha)

theorem treeOf_eq_of_reachable (hab : G.Reachable a b) : treeOf size G a = treeOf size G b := by
  ext i
  simp only [treeOf, Finset.mem_filter]
  exact and_congr_right fun _ => ⟨fun h => hab.symm.trans h, fun h => hab.trans h⟩

/-- Different trees share no variable. -/
theorem disjoint_trees (h : IsJoinForest size G scope) (hne : ¬ G.Reachable a b) :
    Disjoint ((treeOf size G a).biUnion scope) ((treeOf size G b).biUnion scope) := by
  refine Finset.disjoint_left.2 fun v hva hvb => hne ?_
  obtain ⟨i, hi, hvi⟩ := Finset.mem_biUnion.1 hva
  obtain ⟨j, hj, hvj⟩ := Finset.mem_biUnion.1 hvb
  simp only [treeOf, Finset.mem_filter, Finset.mem_range] at hi hj
  exact (hi.2.trans (h.reachable_of_shared hi.1 hj.1 hvi hvj)).trans hj.2.symm

variable {roots : Finset ℕ}

/-- The marginal of all cliques is the product of the marginals of the trees. -/
theorem cliqueMarginal_trees (h : IsJoinForest size G scope) (mode : Mode)
    (hd : (axes.map Axis.name).Nodup) (hweight : ∀ i, Reads (weight i) (scope i))
    (haxes : ∀ i, ∀ n ∈ scope i, n ∈ axes.map Axis.name)
    (hcover : ∀ i < size, ∃ r ∈ roots, G.Reachable r i)
    (hunique : ∀ r ∈ roots, ∀ s ∈ roots, G.Reachable r s → r = s) (kept : Finset String)
    {x : JointState} (hx : InRange axes x) :
    cliqueMarginal mode axes scope weight (Finset.range size) kept x
      = ∏ r ∈ roots, cliqueMarginal mode axes scope weight (treeOf size G r) kept x := by
  have hrange : Finset.range size = roots.biUnion fun r => treeOf size G r := by
    ext i
    simp only [Finset.mem_range, Finset.mem_biUnion, treeOf, Finset.mem_filter]
    constructor
    · intro hi
      obtain ⟨r, hr, hri⟩ := hcover i hi
      exact ⟨r, hr, hi, hri⟩
    · rintro ⟨r, -, hi, -⟩
      exact hi
  have htrees : ∀ r ∈ roots, ∀ s ∈ roots, r ≠ s →
      Disjoint (treeOf size G r) (treeOf size G s) := by
    intro r hr s hs hne
    refine Finset.disjoint_left.2 fun i hi hj => hne (hunique r hr s hs ?_)
    simp only [treeOf, Finset.mem_filter] at hi hj
    exact hi.2.trans hj.2.symm
  have hvars : (Finset.range size).biUnion scope \ kept
      = roots.biUnion fun r => (treeOf size G r).biUnion scope \ kept := by
    rw [hrange]
    ext v
    simp only [Finset.mem_sdiff, Finset.mem_biUnion]
    constructor
    · rintro ⟨⟨i, ⟨r, hr, hi⟩, hv⟩, hk⟩
      exact ⟨r, hr, ⟨i, hi, hv⟩, hk⟩
    · rintro ⟨r, hr, ⟨i, hi, hv⟩, hk⟩
      exact ⟨⟨i, ⟨r, hr, hi⟩, hv⟩, hk⟩
  have hprod : (fun y => ∏ i ∈ Finset.range size, weight i y)
      = fun y => ∏ r ∈ roots, ∏ i ∈ treeOf size G r, weight i y := by
    funext y
    rw [hrange]
    exact Finset.prod_biUnion fun r hr s hs hne => htrees r hr s hs hne
  rw [cliqueMarginal, hvars, hprod]
  exact Mode.collapse_prod mode hd roots
    (fun r => (treeOf size G r).biUnion scope)
    (fun r _ => Reads.prod fun i _ => hweight i)
    (fun r _ n hn => by
      obtain ⟨i, -, hni⟩ := Finset.mem_biUnion.1 hn
      exact haxes i n hni)
    (fun r _ => Finset.sdiff_subset)
    (fun r hr s hs hne => (h.disjoint_trees fun hrs => hne (hunique r hr s hs hrs)).mono_right
      Finset.sdiff_subset) hx

/-- A marginal of one tree, scaled by the totals of all other trees, is a marginal of all
cliques. -/
theorem cliqueMarginal_scaled (h : IsJoinForest size G scope) (mode : Mode)
    (hd : (axes.map Axis.name).Nodup) (hweight : ∀ i, Reads (weight i) (scope i))
    (haxes : ∀ i, ∀ n ∈ scope i, n ∈ axes.map Axis.name)
    (hcover : ∀ i < size, ∃ r ∈ roots, G.Reachable r i)
    (hunique : ∀ r ∈ roots, ∀ s ∈ roots, G.Reachable r s → r = s) {r : ℕ} (hr : r ∈ roots)
    (hra : G.Reachable r a) (ha : a < size) {x : JointState} (hx : InRange axes x)
    (hne : cliqueMarginal mode axes scope weight (treeOf size G r) ∅ x ≠ 0) :
    cliqueMarginal mode axes scope weight (treeOf size G a) (scope a) x
        * (cliqueMarginal mode axes scope weight (Finset.range size) ∅ x
          / cliqueMarginal mode axes scope weight (treeOf size G r) ∅ x)
      = cliqueMarginal mode axes scope weight (Finset.range size) (scope a) x := by
  have hforest := h.cliqueMarginal_trees mode hd hweight haxes hcover hunique
  have hother : ∀ s ∈ roots.erase r,
      cliqueMarginal mode axes scope weight (treeOf size G s) (scope a) x
        = cliqueMarginal mode axes scope weight (treeOf size G s) ∅ x := by
    intro s hs
    obtain ⟨hsr, hs⟩ := Finset.mem_erase.1 hs
    have hapart : ¬ G.Reachable s a := fun hsa =>
      hsr (hunique s hs r hr (hsa.trans hra.symm))
    have hdis : Disjoint ((treeOf size G s).biUnion scope) (scope a) :=
      (h.disjoint_trees hapart).mono_right (scope_subset_tree scope ha)
    rw [cliqueMarginal, cliqueMarginal, Finset.sdiff_eq_self_of_disjoint hdis, Finset.sdiff_empty]
  rw [hforest _ hx, hforest _ hx, ← Finset.mul_prod_erase _ _ hr, ← Finset.mul_prod_erase _ _ hr,
    Finset.prod_congr rfl hother, treeOf_eq_of_reachable hra, mul_div_cancel_left₀ _ ?_]
  rwa [← treeOf_eq_of_reachable hra]

end IsJoinForest

end Marginal

end ExactInference
