import ExactInference.Fault

/-!
# Whole numbers from loosely typed values

A state, a number of states or a position may be given by any value that stands for a whole number.
A binary64 number is cut toward zero, a truth value counts as one or zero, and a text is read as a
decimal numeral. Comparisons of two values are exact and happen before any conversion.
-/

namespace ExactInference

namespace Decimal

/-- Compare a whole number with a finite reading, exactly. -/
def compareWhole (n : Int) (negative : Bool) (x : Dyadic) : Ordering :=
  let right : Int := if negative then -(x.numerator 0 : Int) else x.numerator 0
  compare (n * (x.denominator 0 : Int)) right

end Decimal

namespace Datum

/-- The whole number that a value stands for. -/
def toInt : Datum → Except Fault Int
  | .whole n => .ok n
  | .real x =>
    match Decimal.read x with
    | .nan => .error .nanToWhole
    | .infinite _ => .error .infiniteToWhole
    | .finite negative m => .ok (if negative then -(m.wholePart : Int) else m.wholePart)
  | .truth b => .ok (if b then 1 else 0)
  | .text s =>
    match Text.excessDigits? s with
    | some digits => .error (.tooManyDigits digits)
    | none =>
      match Text.whole? s with
      | some n => .ok n
      | none => .error (.badLiteral s)
  | .absent => .error (.noWhole .absent)
  | .several _ => .error (.noWhole .several)
  | .mapping _ => .error (.noWhole .mapping)

/-- The number that a value is in comparisons; only numbers and truth values are numbers. -/
def number? : Datum → Option (Int ⊕ Float)
  | .whole n => some (.inl n)
  | .real x => some (.inr x)
  | .truth b => some (.inl (if b then 1 else 0))
  | _ => none

/-- How two numbers compare; nothing compares with a number that is no number. -/
def compareNumbers? : Int ⊕ Float → Int ⊕ Float → Option Ordering
  | .inl a, .inl b => some (compare a b)
  | .inl a, .inr y =>
    match Decimal.read y with
    | .nan => none
    | .infinite negative => some (if negative then .gt else .lt)
    | .finite negative m => some (Decimal.compareWhole a negative m)
  | .inr x, .inl b =>
    match Decimal.read x with
    | .nan => none
    | .infinite negative => some (if negative then .lt else .gt)
    | .finite negative m => some (Decimal.compareWhole b negative m).swap
  | .inr x, .inr y =>
    if x < y then some .lt else if x == y then some .eq else if y < x then some .gt else none

/-- Whether `0 ≤ state` and then whether `state < count`, each refused if the two have no order. -/
def isStateOf (state count : Datum) : Except Fault Bool :=
  match state.number? with
  | none => .error (.incomparable "<=" .whole state.sort)
  | some s =>
    match compareNumbers? (.inl 0) s with
    | none | some .gt => .ok false
    | some _ =>
      match count.number? with
      | none => .error (.incomparable "<" state.sort count.sort)
      | some n => .ok (compareNumbers? s n == some .lt)

end Datum

/-- Values that can name a state or count states. -/
class StateValue (σ : Type) where
  /-- The whole number that the value stands for. -/
  toInt : σ → Except Fault Int
  /-- Whether the first value is a state of a variable with as many states as the second says. -/
  isStateOf : σ → σ → Except Fault Bool
  /-- The value in a message. -/
  shown : σ → String

instance : StateValue Int where
  toInt n := .ok n
  isStateOf s n := .ok (decide (0 ≤ s ∧ s < n))
  shown n := toString n

instance : StateValue Datum where
  toInt := Datum.toInt
  isStateOf := Datum.isStateOf
  shown := Datum.shown

end ExactInference
