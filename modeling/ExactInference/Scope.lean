import ExactInference.Fault

/-!
# Scopes and joint states

A table is indexed by the joint states of its variables. A `Scope` lists those variables as axes,
each with its number of states; no name stands on two axes. A `JointState` gives every name a
state, and a scope only looks at the names on its axes. The joint states of a scope are enumerated
in row-major order: the state of the last axis changes fastest. The main statements say that the
position of a joint state in that order is where the enumeration reaches it, and that a value
which only looks at some names is collected alike from joint states that agree on them.
-/

namespace ExactInference

/-- A variable as an axis of a table. -/
structure Axis where
  /-- The name of the variable. -/
  name : String
  /-- Its number of states. -/
  card : Nat
deriving DecidableEq, Repr

/-- A state for every name. -/
abbrev JointState := String → Nat

namespace JointState

/-- The joint state in which every variable is in its first state. -/
def origin : JointState := fun _ => 0

/-- Put one variable into a state. -/
def set (x : JointState) (name : String) (i : Nat) : JointState :=
  fun n => if n = name then i else x n

/-- Put several variables into states; of two states for one name the first counts. -/
def observe (x : JointState) : List (String × Nat) → JointState
  | [] => x
  | e :: rest => (observe x rest).set e.1 e.2

/-- The states of some names. -/
def restrict (x : JointState) (names : List String) : List (String × Nat) :=
  names.map fun n => (n, x n)

/-- A name that is not observed keeps its state. -/
theorem observe_of_not_mem (x : JointState) {n : String} {es : List (String × Nat)}
    (h : n ∉ es.map Prod.fst) : x.observe es n = x n := by
  induction es with
  | nil => rfl
  | cons e rest ih =>
    simp only [List.map_cons, List.mem_cons, not_or] at h
    simp [observe, set, h.1, ih h.2]

/-- The state of an observed name does not depend on what was observed. -/
theorem observe_of_mem (x y : JointState) {n : String} {es : List (String × Nat)}
    (h : n ∈ es.map Prod.fst) : x.observe es n = y.observe es n := by
  induction es with
  | nil => simp at h
  | cons e rest ih =>
    by_cases he : n = e.1
    · simp [observe, set, he]
    · have hr : n ∈ rest.map Prod.fst := by simpa [he] using h
      simp [observe, set, he, ih hr]

@[simp] theorem set_self (x : JointState) (name : String) (i : Nat) : x.set name i name = i := by
  simp [set]

theorem set_of_ne (x : JointState) {n name : String} (h : n ≠ name) (i : Nat) :
    x.set name i n = x n := by
  simp [set, h]

end JointState

/-- The number of joint states of some axes. -/
def stateCount : List Axis → Nat
  | [] => 1
  | a :: rest => a.card * stateCount rest

/-- The joint states that agree with `x` off the axes, in row-major order. An axis is not walked
along if a later one has no states. -/
def completions : List Axis → JointState → List JointState
  | [], x => [x]
  | a :: rest, x =>
    if stateCount rest = 0 then []
    else (List.range a.card).flatMap fun i => completions rest (x.set a.name i)

/-- The row-major position of a joint state. -/
def position : List Axis → JointState → Nat
  | [], _ => 0
  | a :: rest, x => x a.name * stateCount rest + position rest x

/-- Whether a joint state gives every axis one of its states. -/
def InRange (axes : List Axis) (x : JointState) : Prop := ∀ a ∈ axes, x a.name < a.card

/-- Equally long blocks have their number times their length many entries. -/
theorem length_flatMap_range {β : Type} (f : Nat → List β) (len : Nat)
    (hf : ∀ i, (f i).length = len) (n : Nat) : ((List.range n).flatMap f).length = n * len := by
  induction n with
  | zero => simp
  | succ n ih => simp [List.range_succ, List.flatMap_append, ih, hf, Nat.add_mul]

theorem length_completions (axes : List Axis) (x : JointState) :
    (completions axes x).length = stateCount axes := by
  induction axes generalizing x with
  | nil => rfl
  | cons a rest ih =>
    by_cases h : stateCount rest = 0
    · simp [completions, stateCount, h]
    · simp only [completions, h, if_false]
      exact length_flatMap_range _ _ (fun i => ih _) a.card

/-- The completions over one more axis are those at each of its states, state after state. -/
theorem completions_cons (a : Axis) (rest : List Axis) (x : JointState) :
    completions (a :: rest) x
      = (List.range a.card).flatMap fun i => completions rest (x.set a.name i) := by
  by_cases h : stateCount rest = 0
  · have hnone : ∀ y : JointState, completions rest y = [] := fun y =>
      List.eq_nil_of_length_eq_zero (by rw [length_completions, h])
    simp [completions, h, hnone]
  · simp [completions, h]

/-- The position of a joint state only depends on the names of the axes. -/
theorem position_congr {axes : List Axis} {x y : JointState}
    (h : ∀ n ∈ axes.map Axis.name, x n = y n) : position axes x = position axes y := by
  induction axes with
  | nil => rfl
  | cons a rest ih =>
    simp only [position, h a.name (by simp)]
    rw [ih fun n hn => h n (by simp [hn])]

/-- A value that only depends on some names takes the same values on the completions of two joint
states that agree on those of the names that are on no axis. -/
theorem map_completions_congr {β : Type} {F : JointState → β} {names : List String}
    (hF : ∀ x y : JointState, (∀ n ∈ names, x n = y n) → F x = F y) {axes : List Axis}
    {x y : JointState} (h : ∀ n ∈ names, n ∉ axes.map Axis.name → x n = y n) :
    (completions axes x).map F = (completions axes y).map F := by
  induction axes generalizing x y with
  | nil => simpa [completions] using hF x y fun n hn => h n hn (by simp)
  | cons a rest ih =>
    simp only [completions_cons, List.map_flatMap]
    congr 1
    funext i
    apply ih
    intro n hn hr
    by_cases hna : n = a.name
    · simp [hna]
    · rw [JointState.set_of_ne _ hna, JointState.set_of_ne _ hna]
      exact h n hn (by simp [hna, hr])

/-- The completions of a joint state are those that agree with it off the axes and are in range on
them. -/
theorem mem_completions {axes : List Axis} (hd : (axes.map Axis.name).Nodup) {x y : JointState} :
    y ∈ completions axes x ↔
      (∀ n, n ∉ axes.map Axis.name → y n = x n) ∧ InRange axes y := by
  induction axes generalizing x with
  | nil =>
    simp only [completions, List.mem_singleton, List.map_nil, List.not_mem_nil, not_false_eq_true,
      forall_const, InRange, false_implies, implies_true, and_true]
    exact funext_iff
  | cons a rest ih =>
    obtain ⟨ha, hrest⟩ := List.nodup_cons.1 hd
    simp only [completions_cons, List.mem_flatMap, List.mem_range, ih hrest]
    constructor
    · rintro ⟨i, hi, hoff, hin⟩
      have hname : y a.name = i := by simpa using hoff a.name ha
      refine ⟨fun n hn => ?_, fun b hb => ?_⟩
      · simp only [List.map_cons, List.mem_cons, not_or] at hn
        rw [hoff n hn.2, JointState.set_of_ne _ hn.1]
      · rcases List.mem_cons.1 hb with rfl | hb
        · exact hname ▸ hi
        · exact hin b hb
    · rintro ⟨hoff, hin⟩
      refine ⟨y a.name, hin a List.mem_cons_self, fun n hn => ?_,
        fun b hb => hin b (List.mem_cons_of_mem a hb)⟩
      by_cases hna : n = a.name
      · rw [hna, JointState.set_self]
      · rw [JointState.set_of_ne _ hna]
        exact hoff n (by simp [hna, hn])

theorem position_lt {axes : List Axis} {x : JointState} (h : InRange axes x) :
    position axes x < stateCount axes := by
  induction axes with
  | nil => simp [position, stateCount]
  | cons a rest ih =>
    have ha : x a.name < a.card := h a (by simp)
    have hr := ih fun b hb => h b (by simp [hb])
    calc position (a :: rest) x
        < x a.name * stateCount rest + stateCount rest := by
          simp only [position]; exact Nat.add_lt_add_left hr _
      _ = (x a.name + 1) * stateCount rest := by rw [Nat.add_mul, Nat.one_mul]
      _ ≤ stateCount (a :: rest) := Nat.mul_le_mul_right _ ha

/-- Reading a list of equally long blocks at an offset inside one block reads that block. -/
theorem getElem?_flatMap_range {β : Type} (f : Nat → List β) (len : Nat)
    (hf : ∀ i, (f i).length = len) {n i j : Nat} (hi : i < n) (hj : j < len) :
    ((List.range n).flatMap f)[i * len + j]? = (f i)[j]? := by
  induction n with
  | zero => omega
  | succ n ih =>
    have hlen := length_flatMap_range f len hf n
    rw [List.range_succ, List.flatMap_append]
    by_cases h : i < n
    · have hb : i * len + j < n * len := by
        calc i * len + j < i * len + len := Nat.add_lt_add_left hj _
          _ = (i + 1) * len := by rw [Nat.add_mul, Nat.one_mul]
          _ ≤ n * len := Nat.mul_le_mul_right _ h
      rw [List.getElem?_append_left (by rw [hlen]; exact hb)]
      exact ih h
    · have he : i = n := by omega
      subst he
      rw [List.getElem?_append_right (by rw [hlen]; omega), hlen]
      simp

/-- A joint state of a scope stands at its position in the enumeration. -/
theorem getElem?_completions {axes : List Axis} {x : JointState} (h : InRange axes x)
    (hd : (axes.map Axis.name).Nodup) (base : JointState)
    (hbase : ∀ n, n ∉ axes.map Axis.name → base n = x n) :
    (completions axes base)[position axes x]? = some x := by
  induction axes generalizing base with
  | nil =>
    have : base = x := funext fun n => hbase n (by simp)
    simp [completions, position, this]
  | cons a rest ih =>
    have ha : x a.name < a.card := h a (by simp)
    have hr : InRange rest x := fun b hb => h b (by simp [hb])
    simp only [List.map_cons, List.nodup_cons] at hd
    simp only [completions_cons, position]
    rw [getElem?_flatMap_range _ (stateCount rest) (fun i => length_completions rest _) ha
      (position_lt hr)]
    apply ih hr hd.2
    intro n hn
    by_cases hna : n = a.name
    · subst hna; simp
    · rw [JointState.set_of_ne _ hna]
      exact hbase n (by simp [hna, hn])

/-- The axes of a table: variables with their numbers of states, no name twice. -/
structure Scope where
  /-- The axes in order, the last one changing fastest. -/
  axes : List Axis
  /-- No name stands on two axes. -/
  distinct : (axes.map Axis.name).Nodup
deriving DecidableEq, Repr

namespace Scope

/-- The names on the axes. -/
def names (s : Scope) : List String := s.axes.map Axis.name

/-- The numbers of states of the axes. -/
def cards (s : Scope) : List Nat := s.axes.map Axis.card

/-- The number of joint states. -/
def size (s : Scope) : Nat := stateCount s.axes

/-- The scope without variables; it has one joint state. -/
def nil : Scope := ⟨[], by simp⟩

/-- Whether a name stands on an axis. -/
def has (s : Scope) (name : String) : Bool := s.names.contains name

/-- The number of states on the axis of a name. -/
def card? (s : Scope) (name : String) : Option Nat :=
  (s.axes.find? fun a => a.name == name).map Axis.card

/-- In a list without repeated names an axis is determined by its name. -/
theorem axis_eq_of_name_eq {axes : List Axis} (hd : (axes.map Axis.name).Nodup) {a b : Axis}
    (ha : a ∈ axes) (hb : b ∈ axes) (h : a.name = b.name) : a = b := by
  induction axes with
  | nil => cases ha
  | cons c rest ih =>
    obtain ⟨hc, hrest⟩ := List.nodup_cons.1 hd
    rcases List.mem_cons.1 ha with rfl | har
    · rcases List.mem_cons.1 hb with rfl | hbr
      · rfl
      · exact absurd (h ▸ List.mem_map_of_mem hbr) hc
    · rcases List.mem_cons.1 hb with rfl | hbr
      · exact absurd (h ▸ List.mem_map_of_mem har) hc
      · exact ih hrest har hbr

/-- A scope finds the axis of a name. -/
theorem find?_name_eq_some_iff {s : Scope} {n : String} {a : Axis} :
    (s.axes.find? fun c => c.name == n) = some a ↔ a ∈ s.axes ∧ a.name = n := by
  constructor
  · intro hfound
    exact ⟨List.mem_of_find?_eq_some hfound, by simpa using List.find?_some hfound⟩
  · rintro ⟨ha, rfl⟩
    cases hfound : s.axes.find? fun c => c.name == a.name with
    | none => exact (List.find?_eq_none.1 hfound a ha (beq_self_eq_true a.name)).elim
    | some c =>
      have hname : c.name = a.name := by simpa using List.find?_some hfound
      rw [axis_eq_of_name_eq s.distinct (List.mem_of_find?_eq_some hfound) ha hname]

/-- The axes that satisfy a condition on names, in the same order. -/
def keep (s : Scope) (p : String → Bool) : Scope where
  axes := s.axes.filter fun a => p a.name
  distinct := (List.filter_sublist.map Axis.name).nodup s.distinct

/-- The names that are kept are those of the scope that satisfy the condition. -/
theorem mem_names_keep (s : Scope) (p : String → Bool) (n : String) :
    n ∈ (s.keep p).names ↔ n ∈ s.names ∧ p n = true := by
  constructor
  · intro h
    obtain ⟨a, ha, rfl⟩ := List.mem_map.1 h
    exact ⟨List.mem_map_of_mem (List.mem_filter.1 ha).1, (List.mem_filter.1 ha).2⟩
  · rintro ⟨h, hp⟩
    obtain ⟨a, ha, rfl⟩ := List.mem_map.1 h
    exact List.mem_map_of_mem (List.mem_filter.2 ⟨ha, hp⟩)

/-- The first axis of `t` on which `s` counts the states differently. -/
def conflict? (s t : Scope) : Option Fault :=
  t.axes.findSome? fun b =>
    match s.card? b.name with
    | none => none
    | some c => if c = b.card then none else some (.cardinalityConflict b.name c b.card)

/-- The axes of `s` and then those axes of `t` whose names are new. -/
def join (s t : Scope) : Scope where
  axes := s.axes ++ t.axes.filter fun b => !s.has b.name
  distinct := by
    rw [List.map_append, List.nodup_append]
    refine ⟨s.distinct, (List.filter_sublist.map Axis.name).nodup t.distinct, ?_⟩
    intro n hn m hm hnm
    subst hnm
    obtain ⟨b, hb, rfl⟩ := List.mem_map.1 hm
    have := (List.mem_filter.1 hb).2
    simp [has, names] at this
    obtain ⟨a, ha, hab⟩ := List.mem_map.1 hn
    exact this a ha hab

/-- The names of a join are those of both scopes. -/
theorem mem_names_join (s t : Scope) (n : String) :
    n ∈ (s.join t).names ↔ n ∈ s.names ∨ n ∈ t.names := by
  simp only [names, join, List.map_append, List.mem_append]
  constructor
  · rintro (h | h)
    · exact Or.inl h
    · obtain ⟨b, hb, rfl⟩ := List.mem_map.1 h
      exact Or.inr (List.mem_map_of_mem (List.mem_filter.1 hb).1)
  · rintro (h | h)
    · exact Or.inl h
    · by_cases hs : n ∈ s.axes.map Axis.name
      · exact Or.inl hs
      · obtain ⟨b, hb, rfl⟩ := List.mem_map.1 h
        refine Or.inr (List.mem_map_of_mem (List.mem_filter.2 ⟨hb, ?_⟩))
        simpa [has, names] using hs

/-- Pair names with numbers of states, refusing unequal lengths and then repeated names. -/
def ofNames? (names : List String) (cards : List Nat) : Except Fault Scope :=
  if names.length = cards.length then
    let axes := (names.zip cards).map fun e => Axis.mk e.1 e.2
    if h : (axes.map Axis.name).Nodup then .ok ⟨axes, h⟩ else .error (.repeatedNames names)
  else .error (.axisCount names.length cards.length)

/-- The joint states of the scope; off the axes every name is in its first state. -/
def jointStates (s : Scope) : List JointState := completions s.axes JointState.origin

end Scope

end ExactInference
