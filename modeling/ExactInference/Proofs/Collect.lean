import ExactInference.CliqueTree.Passing
import ExactInference.Proofs.ExactWeights

/-!
# Collecting weights over joint states

Sum mode adds weights up and max mode keeps the largest. Both ways of joining two weights are
commutative and associative, have zero as their unit, are zero only if both weights are, and a
common factor can be taken out of them. Everything that the algorithms rely on follows from these
laws, so both modes are treated as one.

`Mode.along` collects a value over the states of some axes, and `Mode.collapse` over the states of
those variables of a fixed list that belong to a set. The main statements are that sets of variables
can be collected one after the other in any order, and that a factor which reads none of the
collected variables can be taken out.
-/

namespace ExactInference

/-- A value that looks at some names only. -/
def Reads {β : Type} (F : JointState → β) (names : Finset String) : Prop :=
  ∀ x y : JointState, (∀ n ∈ names, x n = y n) → F x = F y

namespace Reads

variable {β : Type} {F : JointState → β} {names more : Finset String}

theorem mono (h : Reads F names) (hsub : names ⊆ more) : Reads F more :=
  fun x y hxy => h x y fun n hn => hxy n (hsub hn)

/-- A product of several values looks at what they look at together. -/
theorem prod {W ι : Type} [CommMonoid W] {s : Finset ι} {F : ι → JointState → W}
    {vars : ι → Finset String} (h : ∀ i ∈ s, Reads (F i) (vars i)) :
    Reads (fun x => ∏ i ∈ s, F i x) (s.biUnion vars) := fun x y hxy =>
  Finset.prod_congr rfl fun i hi => h i hi x y fun n hn =>
    hxy n (Finset.mem_biUnion.2 ⟨i, hi, hn⟩)

end Reads

namespace Mode

variable {W : Type} [Semifield W] [LinearOrder W]

/-- Join two weights: add them, or keep the larger. -/
def join : Mode → W → W → W
  | .sum => (· + ·)
  | .max => Max.max

/-- Join all weights of a list. -/
def collect (mode : Mode) (ws : List W) : W := ws.foldr mode.join 0

@[simp] theorem collect_nil (mode : Mode) : mode.collect ([] : List W) = 0 := rfl

@[simp] theorem collect_cons (mode : Mode) (w : W) (ws : List W) :
    mode.collect (w :: ws) = mode.join w (mode.collect ws) := rfl

theorem join_comm (mode : Mode) (a b : W) : mode.join a b = mode.join b a := by
  cases mode with
  | sum => exact add_comm a b
  | max => exact max_comm a b

theorem join_assoc (mode : Mode) (a b c : W) :
    mode.join (mode.join a b) c = mode.join a (mode.join b c) := by
  cases mode with
  | sum => exact add_assoc a b c
  | max => exact max_assoc a b c

theorem join_left_comm (mode : Mode) (a b c : W) :
    mode.join a (mode.join b c) = mode.join b (mode.join a c) := by
  rw [← join_assoc, join_comm mode a b, join_assoc]

/-- Sums of the scale are collected in sum mode. -/
theorem total_eq_collect [WeightScale W] [ExactScale W] (ws : List W) :
    WeightScale.total ws = Mode.sum.collect ws := by
  rw [ExactScale.total_eq]
  induction ws with
  | nil => rfl
  | cons w ws ih => rw [List.sum_cons, ih]; rfl

variable [CanonicallyOrderedAdd W]

@[simp] theorem join_zero (mode : Mode) (a : W) : mode.join a 0 = a := by
  cases mode with
  | sum => exact add_zero a
  | max => exact max_eq_left zero_le

@[simp] theorem zero_join (mode : Mode) (a : W) : mode.join 0 a = a := by
  rw [join_comm, join_zero]

/-- A common factor can be taken out. -/
theorem mul_join [IsStrictOrderedRing W]
    (mode : Mode) (c a b : W) : c * mode.join a b = mode.join (c * a) (c * b) := by
  cases mode with
  | sum => exact mul_add c a b
  | max => exact mul_max_of_nonneg a b zero_le

theorem le_join_left [IsStrictOrderedRing W] (mode : Mode) (a b : W) : a ≤ mode.join a b := by
  cases mode with
  | sum => exact le_add_of_nonneg_right zero_le
  | max => exact le_max_left a b

/-- Joined weights are zero only if both are. -/
theorem join_eq_zero_iff [IsStrictOrderedRing W]
    (mode : Mode) (a b : W) : mode.join a b = 0 ↔ a = 0 ∧ b = 0 := by
  constructor
  · intro h
    have ha : a ≤ 0 := h ▸ le_join_left mode a b
    have hb : b ≤ 0 := h ▸ join_comm mode b a ▸ le_join_left mode b a
    exact ⟨le_zero_iff.1 ha, le_zero_iff.1 hb⟩
  · rintro ⟨rfl, rfl⟩
    exact join_zero mode 0

theorem collect_append (mode : Mode) (ws vs : List W) :
    mode.collect (ws ++ vs) = mode.join (mode.collect ws) (mode.collect vs) := by
  induction ws with
  | nil => simp
  | cons w ws ih => simp only [List.cons_append, collect_cons, ih, join_assoc]

theorem collect_flatMap (mode : Mode) {ι : Type} (is : List ι) (f : ι → List W) :
    mode.collect (is.flatMap f) = mode.collect (is.map fun i => mode.collect (f i)) := by
  induction is with
  | nil => rfl
  | cons i is ih => simp only [List.flatMap_cons, collect_append, List.map_cons, collect_cons, ih]

theorem collect_map_join (mode : Mode) {ι : Type} (is : List ι) (f g : ι → W) :
    mode.collect (is.map fun i => mode.join (f i) (g i))
      = mode.join (mode.collect (is.map f)) (mode.collect (is.map g)) := by
  induction is with
  | nil => simp
  | cons i is ih =>
    simp only [List.map_cons, collect_cons, ih, join_assoc]
    rw [join_left_comm mode (g i)]

/-- It does not matter which of two indices is collected first. -/
theorem collect_comm (mode : Mode) {ι κ : Type} (is : List ι) (ks : List κ) (f : ι → κ → W) :
    mode.collect (is.map fun i => mode.collect (ks.map fun k => f i k))
      = mode.collect (ks.map fun k => mode.collect (is.map fun i => f i k)) := by
  induction is with
  | nil =>
    have hz : mode.collect (ks.map fun _ => (0 : W)) = 0 := by
      induction ks with
      | nil => rfl
      | cons k ks ih => rw [List.map_cons, collect_cons, ih, join_zero]
    simpa only [List.map_nil, collect_nil] using hz.symm
  | cons i is ih => simp only [List.map_cons, collect_cons, ih, collect_map_join]

/-- A common factor can be taken out of all weights. -/
theorem collect_map_mul [IsStrictOrderedRing W]
    (mode : Mode) {ι : Type} (is : List ι) (c : W) (f : ι → W) :
    mode.collect (is.map fun i => c * f i) = c * mode.collect (is.map f) := by
  induction is with
  | nil => simp
  | cons i is ih => simp only [List.map_cons, collect_cons, ih, mul_join]

theorem collect_eq_zero_iff [IsStrictOrderedRing W] (mode : Mode) (ws : List W) :
    mode.collect ws = 0 ↔ ∀ w ∈ ws, w = 0 := by
  induction ws with
  | nil => simp
  | cons w ws ih => simp [join_eq_zero_iff, ih]

theorem le_collect [IsStrictOrderedRing W]
    (mode : Mode) {ws : List W} {w : W} (h : w ∈ ws) : w ≤ mode.collect ws := by
  induction ws with
  | nil => simp at h
  | cons v ws ih =>
    rcases List.mem_cons.1 h with rfl | h
    · exact le_join_left mode _ _
    · rw [collect_cons, join_comm]
      exact (ih h).trans (le_join_left mode _ v)

/-- In max mode some weight of the list is the collected one. -/
theorem collect_max_mem {ws : List W} (h : ws ≠ []) : Mode.max.collect ws ∈ ws := by
  induction ws with
  | nil => exact absurd rfl h
  | cons w ws ih =>
    by_cases hws : ws = []
    · simp [hws]
    · have hmax : Mode.max.collect (w :: ws) = Max.max w (Mode.max.collect ws) := rfl
      rcases max_choice w (Mode.max.collect ws) with he | he
      · exact List.mem_cons.2 (Or.inl (hmax.trans he))
      · rw [hmax, he]
        exact List.mem_cons_of_mem w (ih hws)

/-- Maxima of the scale are collected in max mode. -/
theorem largest_eq_collect [WeightScale W] [ExactScale W] (ws : List W) :
    WeightScale.largest ws = Mode.max.collect ws := by
  have hfold : ∀ (ws : List W) (w : W),
      ws.foldl WeightScale.larger w = Mode.max.join w (Mode.max.collect ws) := by
    intro ws
    induction ws with
    | nil => intro w; simp
    | cons v ws ih =>
      intro w
      rw [List.foldl_cons, ih, ExactScale.larger_eq, collect_cons]
      exact join_assoc Mode.max w v _
  cases ws with
  | nil => exact ExactScale.zero_eq
  | cons w ws => exact hfold ws w

end Mode

theorem JointState.set_comm (x : JointState) {m n : String} (h : m ≠ n) (i j : Nat) :
    (x.set m i).set n j = (x.set n j).set m i := by
  funext k
  by_cases hm : k = m
  · subst hm
    simp [JointState.set, h]
  · simp [JointState.set, hm]

/-- The axes of those variables that belong to a set. -/
def axesIn (axes : List Axis) (vars : Finset String) : List Axis :=
  axes.filter fun a => a.name ∈ vars

theorem mem_axesIn {axes : List Axis} {vars : Finset String} {a : Axis} :
    a ∈ axesIn axes vars ↔ a ∈ axes ∧ a.name ∈ vars := by
  simp [axesIn]

theorem mem_names_axesIn {axes : List Axis} {vars : Finset String} {n : String} :
    n ∈ (axesIn axes vars).map Axis.name ↔ n ∈ axes.map Axis.name ∧ n ∈ vars := by
  constructor
  · intro h
    obtain ⟨a, ha, rfl⟩ := List.mem_map.1 h
    exact ⟨List.mem_map_of_mem (mem_axesIn.1 ha).1, (mem_axesIn.1 ha).2⟩
  · rintro ⟨h, hn⟩
    obtain ⟨a, ha, rfl⟩ := List.mem_map.1 h
    exact List.mem_map_of_mem (mem_axesIn.2 ⟨ha, hn⟩)

theorem nodup_axesIn {axes : List Axis} (hd : (axes.map Axis.name).Nodup) (vars : Finset String) :
    ((axesIn axes vars).map Axis.name).Nodup :=
  (List.filter_sublist.map Axis.name).nodup hd

/-- The joint states that may differ from `x` on some variables only, each in one of its states. -/
def variants (axes : List Axis) (vars : Finset String) (x : JointState) : List JointState :=
  completions (axesIn axes vars) x

section Variants

variable {axes : List Axis} {vars : Finset String} {x y : JointState}

/-- The variants of a joint state in range are in range, and agree with it off the variables. -/
theorem mem_variants (hd : (axes.map Axis.name).Nodup) (hx : InRange axes x) :
    y ∈ variants axes vars x ↔
      InRange axes y ∧ ∀ n, (n ∈ vars → n ∉ axes.map Axis.name) → y n = x n := by
  rw [variants, mem_completions (nodup_axesIn hd vars)]
  constructor
  · rintro ⟨hoff, hin⟩
    refine ⟨fun a ha => ?_, fun n hn => hoff n fun hmem => ?_⟩
    · by_cases hv : a.name ∈ vars
      · exact hin a (mem_axesIn.2 ⟨ha, hv⟩)
      · rw [hoff a.name fun hmem => hv (mem_names_axesIn.1 hmem).2]
        exact hx a ha
    · exact hn (mem_names_axesIn.1 hmem).2 (mem_names_axesIn.1 hmem).1
  · rintro ⟨hin, hoff⟩
    exact ⟨fun n hn => hoff n fun hv hmem => hn (mem_names_axesIn.2 ⟨hmem, hv⟩),
      fun a ha => hin a (mem_axesIn.1 ha).1⟩

theorem self_mem_variants (hd : (axes.map Axis.name).Nodup) (hx : InRange axes x) :
    x ∈ variants axes vars x :=
  (mem_variants hd hx).2 ⟨hx, fun _ _ => rfl⟩

theorem inRange_of_mem_variants (hd : (axes.map Axis.name).Nodup) (hx : InRange axes x)
    (hy : y ∈ variants axes vars x) : InRange axes y :=
  ((mem_variants hd hx).1 hy).1

theorem eq_of_mem_variants (hd : (axes.map Axis.name).Nodup) (hx : InRange axes x)
    (hy : y ∈ variants axes vars x) {n : String} (hn : n ∉ vars) : y n = x n :=
  ((mem_variants hd hx).1 hy).2 n fun h => absurd h hn

end Variants

namespace Mode

variable {W : Type} [Semifield W] [LinearOrder W]

/-- Collect a value over the states of some axes. -/
def along (mode : Mode) (axes : List Axis) (F : JointState → W) (x : JointState) : W :=
  mode.collect ((completions axes x).map F)

/-- Collect a value over the states of those variables that belong to a set. -/
def collapse (mode : Mode) (axes : List Axis) (vars : Finset String) (F : JointState → W)
    (x : JointState) : W := mode.collect ((variants axes vars x).map F)

variable [CanonicallyOrderedAdd W]

@[simp] theorem along_nil (mode : Mode) (F : JointState → W) : mode.along [] F = F := by
  funext x
  exact join_zero mode (F x)

theorem along_cons (mode : Mode) (a : Axis) (rest : List Axis) (F : JointState → W)
    (x : JointState) : mode.along (a :: rest) F x
      = mode.collect ((List.range a.card).map fun i => mode.along rest F (x.set a.name i)) := by
  rw [along, completions_cons, List.map_flatMap, collect_flatMap]
  rfl

theorem along_append (mode : Mode) (first second : List Axis) (F : JointState → W) :
    mode.along (first ++ second) F = mode.along first (mode.along second F) := by
  induction first with
  | nil => simp
  | cons a rest ih =>
    funext x
    simp only [List.cons_append, along_cons, ih]

/-- The order of the axes does not matter. -/
theorem along_perm (mode : Mode) {first second : List Axis} (h : first.Perm second)
    (hd : (first.map Axis.name).Nodup) (F : JointState → W) :
    mode.along first F = mode.along second F := by
  induction h with
  | nil => rfl
  | cons a _ ih =>
    funext x
    simp only [along_cons, ih (List.nodup_cons.1 hd).2]
  | swap a b rest =>
    have hne : b.name ≠ a.name := by
      intro he
      simp [he] at hd
    funext x
    simp only [along_cons]
    rw [collect_comm]
    simp only [JointState.set_comm x hne]
  | trans h₁ _ ih₁ ih₂ => exact (ih₁ hd).trans (ih₂ ((h₁.map Axis.name).nodup_iff.1 hd))

variable {axes : List Axis} {x : JointState}

theorem collapse_empty (mode : Mode) (F : JointState → W) : mode.collapse axes ∅ F = F := by
  have h : axesIn axes ∅ = [] := by simp [axesIn]
  funext x
  rw [collapse, variants, h]
  exact join_zero mode (F x)

/-- Disjoint sets of variables can be collected one after the other. -/
theorem collapse_union (mode : Mode) (hd : (axes.map Axis.name).Nodup)
    {first second : Finset String} (h : Disjoint first second) (F : JointState → W) :
    mode.collapse axes (first ∪ second) F
      = mode.collapse axes first (mode.collapse axes second F) := by
  have hperm : (axesIn axes (first ∪ second)).Perm (axesIn axes first ++ axesIn axes second) := by
    have hsplit := List.filter_append_perm (fun a => decide (a.name ∈ first))
      (axesIn axes (first ∪ second))
    have hfirst : (axesIn axes (first ∪ second)).filter (fun a => decide (a.name ∈ first))
        = axesIn axes first := by
      rw [axesIn, List.filter_filter]
      refine List.filter_congr fun a _ => ?_
      by_cases ha : a.name ∈ first <;> simp [ha]
    have hsecond : (axesIn axes (first ∪ second)).filter (fun a => !decide (a.name ∈ first))
        = axesIn axes second := by
      rw [axesIn, List.filter_filter]
      refine List.filter_congr fun a _ => ?_
      by_cases ha : a.name ∈ first
      · simp [ha, Finset.disjoint_left.1 h ha]
      · simp [ha]
    rw [hfirst, hsecond] at hsplit
    exact hsplit.symm
  change mode.along _ F = mode.along _ (mode.along _ F)
  rw [along_perm mode hperm (nodup_axesIn hd _), along_append]

/-- Collecting all variables but some, and then some of these, collects all but the rest. -/
theorem collapse_sdiff (mode : Mode) (hd : (axes.map Axis.name).Nodup)
    {all kept fewer : Finset String} (hfewer : fewer ⊆ kept) (hkept : kept ⊆ all)
    (F : JointState → W) :
    mode.collapse axes (kept \ fewer) (mode.collapse axes (all \ kept) F)
      = mode.collapse axes (all \ fewer) F := by
  have hsplit : all \ fewer = (kept \ fewer) ∪ (all \ kept) := by
    rw [Finset.union_comm, Finset.sdiff_union_sdiff_cancel hkept hfewer]
  have hdisjoint : Disjoint (kept \ fewer) (all \ kept) :=
    Finset.disjoint_of_subset_left Finset.sdiff_subset Finset.disjoint_sdiff
  rw [hsplit, collapse_union mode hd hdisjoint]

omit [CanonicallyOrderedAdd W] in
/-- Values that agree on all variants are collected alike. -/
theorem collapse_congr (mode : Mode) {vars : Finset String} {F G : JointState → W}
    (h : ∀ y ∈ variants axes vars x, F y = G y) :
    mode.collapse axes vars F x = mode.collapse axes vars G x := by
  rw [collapse, collapse, List.map_congr_left h]

variable [IsStrictOrderedRing W]

/-- A factor that reads none of the collected variables can be taken out. -/
theorem collapse_mul_left (mode : Mode) (hd : (axes.map Axis.name).Nodup) (hx : InRange axes x)
    {vars names : Finset String} {F G : JointState → W} (hG : Reads G names)
    (hdis : Disjoint names vars) :
    mode.collapse axes vars (fun y => G y * F y) x = G x * mode.collapse axes vars F x := by
  have hsame : ∀ y ∈ variants axes vars x, G y * F y = G x * F y := fun y hy => by
    rw [hG y x fun n hn => eq_of_mem_variants hd hx hy (Finset.disjoint_left.1 hdis hn)]
  rw [collapse_congr mode hsame]
  exact collect_map_mul mode _ (G x) F

omit [IsStrictOrderedRing W] [CanonicallyOrderedAdd W] in
/-- A collected value does not look at the collected variables. -/
theorem reads_collapse (mode : Mode) {vars names : Finset String} {F : JointState → W}
    (hF : Reads F names) (hsub : ∀ n ∈ names, n ∈ axes.map Axis.name) :
    Reads (mode.collapse axes vars F) (names \ vars) := by
  intro x y hxy
  have hlist : ∀ x y : JointState, (∀ n ∈ names.toList, x n = y n) → F x = F y := fun x y h =>
    hF x y fun n hn => h n (Finset.mem_toList.2 hn)
  have hmap : (completions (axesIn axes vars) x).map F = (completions (axesIn axes vars) y).map F :=
    map_completions_congr hlist fun n hn hout =>
      hxy n (Finset.mem_sdiff.2 ⟨Finset.mem_toList.1 hn, fun hv =>
        hout (mem_names_axesIn.2 ⟨hsub n (Finset.mem_toList.1 hn), hv⟩)⟩)
  rw [collapse, collapse, variants, variants, hmap]

theorem collapse_eq_zero_iff (mode : Mode) {vars : Finset String} {F : JointState → W} :
    mode.collapse axes vars F x = 0 ↔ ∀ y ∈ variants axes vars x, F y = 0 := by
  rw [collapse, collect_eq_zero_iff]
  exact ⟨fun h y hy => h _ (List.mem_map_of_mem hy), fun h w hw => by
    obtain ⟨y, hy, rfl⟩ := List.mem_map.1 hw
    exact h y hy⟩

/-- A value is at most what is collected over its variants. -/
theorem le_collapse (mode : Mode) {vars : Finset String} {F : JointState → W} {y : JointState}
    (hy : y ∈ variants axes vars x) : F y ≤ mode.collapse axes vars F x :=
  le_collect mode (List.mem_map_of_mem hy)

/-- Values that look at separate variables are collected separately. -/
theorem collapse_prod (mode : Mode) (hd : (axes.map Axis.name).Nodup) {ι : Type} [DecidableEq ι]
    (s : Finset ι) (names : ι → Finset String) {vars : ι → Finset String} {F : ι → JointState → W}
    (hF : ∀ i ∈ s, Reads (F i) (names i))
    (hsub : ∀ i ∈ s, ∀ n ∈ names i, n ∈ axes.map Axis.name)
    (hvars : ∀ i ∈ s, vars i ⊆ names i)
    (hdis : ∀ i ∈ s, ∀ j ∈ s, i ≠ j → Disjoint (names i) (vars j)) (hx : InRange axes x) :
    mode.collapse axes (s.biUnion vars) (fun y => ∏ i ∈ s, F i y) x
      = ∏ i ∈ s, mode.collapse axes (vars i) (F i) x := by
  induction s using Finset.induction_on generalizing x with
  | empty => simp [collapse_empty]
  | insert i s hi ih =>
    have hmem : ∀ j ∈ s, j ∈ insert i s := fun j hj => Finset.mem_insert_of_mem hj
    have hne : ∀ j ∈ s, i ≠ j := fun j hj he => hi (he ▸ hj)
    have hself := Finset.mem_insert_self i s
    have hrest : Disjoint (names i) (s.biUnion vars) :=
      (Finset.disjoint_biUnion_right _ _ _).2 fun j hj => hdis i hself j (hmem j hj) (hne j hj)
    have hback : Disjoint (s.biUnion names) (vars i) :=
      (Finset.disjoint_biUnion_left _ _ _).2 fun j hj =>
        hdis j (hmem j hj) i hself (hne j hj).symm
    have hreads : Reads (mode.collapse axes (s.biUnion vars) fun y => ∏ j ∈ s, F j y)
        (s.biUnion names) :=
      (reads_collapse mode (Reads.prod fun j hj => hF j (hmem j hj)) fun n hn => by
        obtain ⟨j, hj, hnj⟩ := Finset.mem_biUnion.1 hn
        exact hsub j (hmem j hj) n hnj).mono Finset.sdiff_subset
    have hinner : ∀ y ∈ variants axes (vars i) x,
        mode.collapse axes (s.biUnion vars) (fun y => ∏ j ∈ insert i s, F j y) y
          = mode.collapse axes (s.biUnion vars) (fun y => ∏ j ∈ s, F j y) y * F i y := by
      intro y hy
      simp only [Finset.prod_insert hi]
      rw [collapse_mul_left mode hd (inRange_of_mem_variants hd hx hy) (hF i hself) hrest, mul_comm]
    rw [Finset.biUnion_insert, collapse_union mode hd (hrest.mono_left (hvars i hself)),
      collapse_congr mode hinner, collapse_mul_left mode hd hx hreads hback,
      ih (fun j hj => hF j (hmem j hj)) (fun j hj => hsub j (hmem j hj))
        (fun j hj => hvars j (hmem j hj))
        (fun j hj k hk => hdis j (hmem j hj) k (hmem k hk)) hx,
      Finset.prod_insert hi, mul_comm]

end Mode

end ExactInference
