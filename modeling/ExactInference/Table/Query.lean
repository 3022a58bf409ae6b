import ExactInference.Table.Algebra

/-!
# Questions to a table

Look-ups at an assignment, the numbers in another order of the axes, the number of joint states that
have weight, and the best joint state.
-/

namespace ExactInference.Table

variable {α : Type} [WeightScale α]

/-- The number at an assignment that covers every variable. A state below zero counts from the last
state. -/
def lookup {σ : Type} [StateValue σ] (t : Table α) (a : OrderedMap String σ) : Except Fault α := do
  let key ← keyFor t.names a
  let states ← resolveKey t.cards key
  .ok (t.weightAt (JointState.origin.observe (t.names.zip states)))

/-- The number of states of a variable. -/
def cardinality (t : Table α) (name : String) : Except Fault Nat :=
  match t.scope.card? name with
  | some n => .ok n
  | none => .error (.notInFactor name)

/-- The numbers with the axes in a requested order, which has to name every variable once. -/
def valuesFor (t : Table α) (requested : List String) : Except Fault (List α) :=
  if requested.isPerm t.names then
    .ok (t.grid.transpose (requested.map fun n => t.names.idxOf n)).entries.toList
  else .error (.orderMismatch requested t.names)

/-- In a requested order of the axes the numbers are those at the joint states in that order. -/
theorem valuesFor_eq (t : Table α) (requested : List String) :
    t.valuesFor requested = if requested.isPerm t.names then
        .ok ((completions (t.axesInOrder requested) JointState.origin).map t.weightAt)
      else .error (.orderMismatch requested t.names) := by
  unfold valuesFor
  split
  next hchecked =>
    have hperm := List.isPerm_iff.1 hchecked
    have hnames := map_name_axesInOrder fun n hn => hperm.mem_iff.1 hn
    have hd : ((t.axesInOrder requested).map Axis.name).Nodup := by
      rw [hnames]
      exact hperm.nodup_iff.2 t.scope.distinct
    have hall : ∀ n ∈ t.names, n ∈ (t.axesInOrder requested).map Axis.name := by
      rw [hnames]
      exact fun n hn => hperm.mem_iff.2 hn
    have hlist := toList_transpose_grid hd (fun a ha => (mem_axesInOrder.1 ha).1) hall
    rw [hnames] at hlist
    rw [hlist]
  next => rfl

/-- The number of joint states whose weight is not zero. -/
def size (t : Table α) : Nat := t.toList.countP fun w => !WeightScale.isZero w

/-- The first of the candidates whose number no later one beats. -/
def best? {β : Type} (weight : β → α) : List β → Option β
  | [] => none
  | c :: cs =>
    some (cs.foldl (fun best d => if WeightScale.beats (weight d) (weight best) then d else best) c)

/-- The first joint state of largest weight, as the states of the variables. -/
def argmax (t : Table α) : Except Fault (List (String × Nat)) :=
  match best? t.weightAt t.scope.jointStates with
  | some x => .ok (x.restrict t.names)
  | none => .error .emptyArgmax

theorem argmax_of_best? {t : Table α} {x : JointState}
    (h : best? t.weightAt t.scope.jointStates = some x) : t.argmax = .ok (x.restrict t.names) := by
  unfold argmax
  rw [h]

end ExactInference.Table
