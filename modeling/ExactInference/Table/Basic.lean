import ExactInference.Index
import ExactInference.Scope
import ExactInference.OrderedMap
import ExactInference.Datum.Whole
import ExactInference.Weight.Scale

/-!
# Dense tables

A table holds one number for every joint state of its scope, in row-major order. `Table.weightAt` is
the view that all operations are described by: the number at a joint state. `Table.ofFn` builds a
table from such a view, and reading the table gives the view back.
-/

namespace ExactInference

/-- One number for every joint state of a scope. -/
@[ext] structure Table (α : Type) where
  /-- The variables of the table. -/
  scope : Scope
  /-- The numbers in row-major order. -/
  data : Array α
  /-- There is one number for every joint state. -/
  data_size : data.size = scope.size

namespace Table

variable {α β : Type}

/-- The names of the variables, in the order of the axes. -/
def names (t : Table α) : List String := t.scope.names

/-- The numbers of states, in the order of the axes. -/
def cards (t : Table α) : List Nat := t.scope.cards

/-- The numbers in row-major order. -/
def toList (t : Table α) : List α := t.data.toList

/-- Change every number. -/
def map (f : α → β) (t : Table α) : Table β := ⟨t.scope, t.data.map f, by simp [t.data_size]⟩

/-- The table with a given number at every joint state. -/
def ofFn (s : Scope) (f : JointState → α) : Table α where
  scope := s
  data := (s.jointStates.map f).toArray
  data_size := by simp [Scope.jointStates, Scope.size, length_completions]

@[simp] theorem scope_ofFn (s : Scope) (f : JointState → α) : (ofFn s f).scope = s := rfl

@[simp] theorem scope_map (f : α → β) (t : Table α) : (t.map f).scope = t.scope := rfl

/-- The number at a joint state; a joint state out of range has the weight zero or the number of
another joint state. -/
def weightAt [WeightScale α] (t : Table α) (x : JointState) : α :=
  t.data.getD (position t.scope.axes x) WeightScale.zero

/-- The number at a joint state only depends on the names of the scope. -/
theorem weightAt_congr [WeightScale α] (t : Table α) {x y : JointState}
    (h : ∀ n ∈ t.names, x n = y n) : t.weightAt x = t.weightAt y := by
  unfold weightAt
  rw [position_congr h]

/-- A table built from a view gives the view back at every joint state in range, for a view that
only looks at the names of the scope. -/
theorem weightAt_ofFn [WeightScale α] {s : Scope} {f : JointState → α} {x : JointState}
    (h : InRange s.axes x) (hf : ∀ y, (∀ n ∈ s.names, y n = x n) → f y = f x) :
    (ofFn s f).weightAt x = f x := by
  let y : JointState := fun n => if n ∈ s.names then x n else 0
  have hy : ∀ n ∈ s.names, y n = x n := fun n hn => by simp [y, hn]
  have hr : InRange s.axes y := fun a ha => by
    rw [hy a.name (List.mem_map_of_mem ha)]
    exact h a ha
  have hget := getElem?_completions hr s.distinct JointState.origin fun n hn => by
    have : n ∉ s.names := hn
    simp [JointState.origin, y, this]
  have hxy : position s.axes x = position s.axes y := position_congr fun n hn => (hy n hn).symm
  simp [weightAt, ofFn, Scope.jointStates, hxy, Array.getD_eq_getD_getElem?, hget, hf y hy]

/-- Changing every number changes the number at every joint state in range. -/
theorem weightAt_map [WeightScale α] [WeightScale β] (f : α → β) (t : Table α) {x : JointState}
    (h : InRange t.scope.axes x) : (t.map f).weightAt x = f (t.weightAt x) := by
  have hlt : position t.scope.axes x < t.data.size := by
    rw [t.data_size]
    exact position_lt h
  simp [weightAt, map, Array.getD_eq_getD_getElem?, hlt]

/-- Build a table from its parts. The number of axes, the numbers of names and cardinalities,
repeated names and the shape of the data are checked in this order. -/
def ofData (form : Form) (names : List String) (cards : List Int) (shape : List Nat)
    (data : List α) : Except Fault (Table α) :=
  if maxAxes < shape.length then .error (.tooManyAxes maxAxes shape.length)
  else if names.length ≠ cards.length then .error (.axisCount names.length cards.length)
  else if ¬ names.Nodup then .error (.repeatedNames names)
  else if shape.map Int.ofNat ≠ cards then
    .error (.shapeMismatch form (shape.map Int.ofNat) cards)
  else do
    let scope ← Scope.ofNames? names shape
    if h : data.toArray.size = scope.size then .ok ⟨scope, data.toArray, h⟩
    else .error (.shapeMismatch form [(data.length : Int)] cards)

/-- A table without variables. -/
def scalar (w : α) : Table α := ofFn Scope.nil fun _ => w

/-- The table over some names that has the weight one everywhere. -/
def uniform [WeightScale α] (names : List String) (cards : List Int) : Except Fault (Table α) := do
  checkCards cards
  let scope ← Scope.ofNames? names (cards.map Int.toNat)
  .ok (ofFn scope fun _ => WeightScale.one)

/-- The states that an assignment gives to some names, all of which it has to cover. -/
def keyFor {σ : Type} [StateValue σ] (names : List String) (a : OrderedMap String σ) :
    Except Fault (List Int) :=
  let missing := names.filter fun n => !a.contains n
  if missing.isEmpty then
    (names.filterMap a.get?).mapM StateValue.toInt
  else .error (.unassigned missing)

/-- The table over some names that has the weight one at an assignment and zero elsewhere. The key
is read and resolved before the names and cardinalities are compared. -/
def indicator [WeightScale α] {σ : Type} [StateValue σ] (names : List String) (cards : List Int)
    (a : OrderedMap String σ) : Except Fault (Table α) := do
  checkCards cards
  let key ← keyFor names a
  let states ← resolveKey (cards.map Int.toNat) key
  let scope ← Scope.ofNames? names (cards.map Int.toNat)
  .ok (ofFn scope fun x =>
    if scope.names.map x = states then WeightScale.one else WeightScale.zero)

end Table

end ExactInference
