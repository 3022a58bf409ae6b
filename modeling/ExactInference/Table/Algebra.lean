import ExactInference.Table.Alignment

/-!
# Operations on tables

Products, sums and maxima over variables, restriction to observed states, and changes of every
number. A product aligns the arrays of both tables and multiplies them entry by entry; the other
operations are the table built from what they do to the numbers at a joint state. The main statement
on each says what reading the result at a joint state in range gives.
-/

namespace ExactInference.Table

variable {α : Type} [WeightScale α]

/-- Why no table can have the axes of two scopes, if the second brings new ones. They are added one
by one, so the first axis beyond the limit is the one that is refused. A walk along the axes stops
at one without states, and what comes before it must be countable. -/
def checkGrowth (s u : Scope) : Except Fault Unit :=
  let joined := s.join u
  if joined.axes.length = s.axes.length then .ok ()
  else if maxAxes < joined.axes.length then .error (.tooManyAxes maxAxes (maxAxes + 1))
  else if signedLimit ≤ (joined.cards.takeWhile (· ≠ 0)).foldl Nat.mul 1 then .error .walkTooLarge
  else checkBytes 8 (joined.cards.map Int.ofNat)

/-- The product of two tables that count states alike: their arrays are aligned with the variables
of the first table and then the new ones of the second, and multiplied entry by entry. -/
def multiplied (t u : Table α) (h : t.scope.conflict? u.scope = none) : Table α :=
  ofGrid (t.scope.join u.scope)
    (Grid.combine WeightScale.mul (t.broadcastInto (t.scope.join u.scope).names)
      (u.broadcastInto (t.scope.join u.scope).names) (stretched?_broadcastInto h)) rfl

/-- The product, over the variables of the first table and then the new ones of the second. A shared
variable must have as many states in both. -/
def product (t u : Table α) : Except Fault (Table α) :=
  match h : t.scope.conflict? u.scope with
  | some fault => .error fault
  | none => do
    checkGrowth t.scope u.scope
    .ok (t.multiplied u h)

/-- Aligned arrays are multiplied at every joint state of the variables of both tables. -/
theorem multiplied_eq_ofFn {t u : Table α} (h : t.scope.conflict? u.scope = none) :
    t.multiplied u h
      = ofFn (t.scope.join u.scope) fun x => WeightScale.mul (t.weightAt x) (u.weightAt x) := by
  refine Table.ext rfl (congrArg List.toArray
    (map_indices_eq (t.scope.join u.scope).distinct fun x hx => ?_))
  have hleft : InRange t.scope.axes x := fun a ha => hx a (List.mem_append_left _ ha)
  have hright : InRange u.scope.axes x := Scope.inRange_right_of_join h hx
  exact congr (congrArg WeightScale.mul
      (entry_broadcastInto (fun n hn => (Scope.mem_names_join _ _ n).2 (Or.inl hn)) hleft))
    (entry_broadcastInto (fun n hn => (Scope.mem_names_join _ _ n).2 (Or.inr hn)) hright)

/-- A product is decided by the scopes, and then it is the table of the products. -/
theorem product_eq (t u : Table α) :
    t.product u = match t.scope.conflict? u.scope with
      | some fault => .error fault
      | none => checkGrowth t.scope u.scope >>= fun _ =>
          .ok (ofFn (t.scope.join u.scope) fun x =>
            WeightScale.mul (t.weightAt x) (u.weightAt x)) := by
  unfold product
  split
  next fault h => rw [h]
  next h => rw [multiplied_eq_ofFn h, h]

/-- A product is pointwise. -/
theorem weightAt_product {t u v : Table α} (hv : t.product u = .ok v) {x : JointState}
    (hx : InRange v.scope.axes x) :
    v.weightAt x = WeightScale.mul (t.weightAt x) (u.weightAt x) := by
  rw [product_eq] at hv
  split at hv
  · cases hv
  · cases hg : checkGrowth t.scope u.scope with
    | error fault => simp [hg, bind, Except.bind] at hv
    | ok _ =>
    simp only [hg, bind, Except.bind, Except.ok.injEq] at hv
    subst hv
    refine weightAt_ofFn hx fun y hy => ?_
    rw [t.weightAt_congr fun n hn => hy n ((Scope.mem_names_join _ _ n).2 (Or.inl hn)),
      u.weightAt_congr fun n hn => hy n ((Scope.mem_names_join _ _ n).2 (Or.inr hn))]

/-- The axes of some names. -/
def axesOf (t : Table α) (names : List String) : List Axis :=
  t.scope.axes.filter fun a => names.contains a.name

/-- Collect, at every joint state of the other variables, the numbers at all states of some names.
-/
def reduce (collect : List α → α) (t : Table α) (names : List String) : Table α :=
  ofFn (t.scope.keep fun n => !names.contains n) fun x =>
    collect ((completions (t.axesOf names) x).map t.weightAt)

/-- A reduced table collects the numbers at all completions of a joint state. -/
theorem weightAt_reduce (collect : List α → α) (t : Table α) (names : List String) {x : JointState}
    (hx : InRange (t.reduce collect names).scope.axes x) :
    (t.reduce collect names).weightAt x
      = collect ((completions (t.axesOf names) x).map t.weightAt) := by
  refine weightAt_ofFn hx fun y hy => congrArg collect ?_
  refine map_completions_congr (fun _ _ h => t.weightAt_congr h) fun n hn hout => hy n ?_
  refine (Scope.mem_names_keep _ _ n).2 ⟨hn, ?_⟩
  obtain ⟨a, ha, rfl⟩ := List.mem_map.1 hn
  by_cases hc : names.contains a.name = true
  · exact absurd (List.mem_map_of_mem (List.mem_filter.2 ⟨ha, hc⟩)) hout
  · simpa using hc

/-- Refuse the first name that is not on an axis. -/
def checkNames (t : Table α) (names : List String) : Except Fault Unit :=
  match names.find? fun n => !t.scope.has n with
  | some n => .error (.notInFactor n)
  | none => .ok ()

/-- Sum some variables out. -/
def marginalize (t : Table α) (names : List String) : Except Fault (Table α) := do
  t.checkNames names
  .ok (t.reduce WeightScale.total names)

/-- Maximize some variables out; there is no maximum over no states. -/
def maxMarginalize (t : Table α) (names : List String) : Except Fault (Table α) := do
  t.checkNames names
  if stateCount (t.axesOf names) = 0 then .error .emptyMaximum
  else .ok (t.reduce WeightScale.largest names)

/-- The states that an assignment gives to some axes. A value is read and checked against its axis
before the next axis is looked at. -/
def observedOn {σ : Type} [StateValue σ] (a : OrderedMap String σ) :
    List Axis → Except Fault (List (String × Nat))
  | [] => .ok []
  | axis :: rest =>
    match a.get? axis.name with
    | none => observedOn a rest
    | some value => do
      let state ← StateValue.toInt value
      if 0 ≤ state ∧ state < axis.card then
        let more ← observedOn a rest
        .ok ((axis.name, state.toNat) :: more)
      else .error (.stateOutOfRange (toString state) axis.name axis.card)

/-- What is observed on some axes are the assigned ones among them. -/
theorem map_fst_observedOn {σ : Type} [StateValue σ] {a : OrderedMap String σ} {axes : List Axis}
    {observed : List (String × Nat)} (h : observedOn a axes = .ok observed) :
    observed.map Prod.fst = (axes.map Axis.name).filter a.contains := by
  induction axes generalizing observed with
  | nil => cases h; rfl
  | cons axis rest ih =>
    unfold observedOn at h
    cases hget : a.get? axis.name with
    | none =>
      rw [hget] at h
      simp [ih h, OrderedMap.contains, hget]
    | some value =>
      rw [hget] at h
      cases hi : (StateValue.toInt value : Except Fault Int) with
      | error fault => simp [hi, bind, Except.bind] at h
      | ok state =>
        simp only [hi, bind, Except.bind] at h
        split at h
        · cases hm : observedOn a rest with
          | error fault => simp [hm] at h
          | ok more =>
            simp only [hm, Except.ok.injEq] at h
            subst h
            simp [ih hm, OrderedMap.contains, hget]
        · cases h

/-- Restrict a table to an assignment and drop the assigned variables. Names that are not on an axis
are ignored. -/
def conditional {σ : Type} [StateValue σ] (t : Table α) (a : OrderedMap String σ) :
    Except Fault (Table α) := do
  let observed ← observedOn a t.scope.axes
  .ok (ofFn (t.scope.keep fun n => !a.contains n) fun x => t.weightAt (x.observe observed))

/-- A restricted table has the number at the joint state with the observed states put in. -/
theorem weightAt_conditional {σ : Type} [StateValue σ] {t u : Table α} {a : OrderedMap String σ}
    (hu : t.conditional a = .ok u) {observed : List (String × Nat)}
    (ho : observedOn a t.scope.axes = .ok observed) {x : JointState}
    (hx : InRange u.scope.axes x) : u.weightAt x = t.weightAt (x.observe observed) := by
  simp only [conditional, ho, bind, Except.bind, Except.ok.injEq] at hu
  subst hu
  refine weightAt_ofFn hx fun y hy => t.weightAt_congr fun n hn => ?_
  have hfst := map_fst_observedOn ho
  by_cases hc : a.contains n = true
  · exact JointState.observe_of_mem y x (by rw [hfst]; exact List.mem_filter.2 ⟨hn, hc⟩)
  · have hout : n ∉ observed.map Prod.fst := by
      rw [hfst]
      exact fun hm => hc (List.mem_filter.1 hm).2
    rw [JointState.observe_of_not_mem y hout, JointState.observe_of_not_mem x hout]
    exact hy n ((Scope.mem_names_keep _ _ n).2 ⟨hn, by simpa using hc⟩)

/-- Multiply every number by a constant. -/
def scaled (t : Table α) (w : α) : Table α := t.map fun v => WeightScale.mul v w

/-- Invert every number; the weight zero stays zero. -/
def invert (t : Table α) : Table α := t.map WeightScale.invert

/-- The sum of all numbers. -/
def total (t : Table α) : α := WeightScale.total t.toList

/-- Divide by the total where that is possible, and leave the table as it is where it is not. -/
def normalize (t : Table α) : Table α :=
  if WeightScale.normalizes t.total then t.map fun v => WeightScale.quotient v t.total else t

end ExactInference.Table
