import ExactInference.Fault
import ExactInference.Weight.Scale

/-!
# Weights in binary64

The two scales that the program computes with. A `Weight` is the weight itself. A `LogWeight` is
its natural logarithm, with minus infinity for the weight zero. Both follow the rules of binary64
for what is no number: it wins every maximum, and of several the first is the best entry of a
table.
-/

namespace ExactInference

/-- A weight in binary64. -/
structure Weight where
  /-- The number. -/
  val : Float
deriving Inhabited

/-- The natural logarithm of a weight in binary64. -/
structure LogWeight where
  /-- The number. -/
  val : Float
deriving Inhabited

namespace Binary64

/-- Positive infinity. -/
def infinity : Float := 1.0 / 0.0

/-- Negative infinity. -/
def bottom : Float := -infinity

/-- Neither infinite nor no number. -/
def isFinite (x : Float) : Bool := !(x.isNaN || x.isInf)

/-- The number nearest to a natural number. Its upper bits are kept, the last one of them set if any
lower bit is, so that they are rounded as the whole would be. -/
def ofNatural (n : Nat) : Float :=
  let shift := n.log2 - 62
  let top := n >>> shift
  (if top <<< shift = n then top else top ||| 1).toUInt64.toFloat.scaleB shift

/-- The number nearest to a whole number, unless that is beyond all numbers. -/
def ofWhole (n : Int) : Except Fault Float :=
  let x := ofNatural n.natAbs
  if x.isInf then .error .wholeTooLarge else .ok (if n < 0 then -x else x)

/-- The larger number; what is no number wins. -/
def larger (x y : Float) : Float :=
  if x.isNaN then x else if y.isNaN then y else if x < y then y else x

/-- Whether a candidate is strictly larger, or the first that is no number. -/
def beats (candidate best : Float) : Bool :=
  !best.isNaN && (candidate.isNaN || best < candidate)

/-- The logarithm of one more than a number, also where that sum would lose the number: the error of
the sum cancels in the quotient. -/
def logOnePlus (x : Float) : Float :=
  let u := 1.0 + x
  if u == 1.0 then x else if u.isInf then u.log else u.log * x / (u - 1.0)

/-- The sum of some numbers, from left to right. -/
def sum (xs : List Float) : Float := xs.foldl (· + ·) 0.0

/-- The logarithm of the sum of the exponentials. The largest terms are counted apart, and the
others are summed relative to them; where that is not finite the exponentials are summed as they
are. -/
def logTotal (xs : List Float) : Float :=
  let top := xs.foldl larger bottom
  let shift := if isFinite top then top else 0.0
  let count := (xs.countP (· == top)).toFloat
  let rest := sum ((xs.filter fun x => !(x == top)).map fun x => (x - shift).exp)
  let share := if rest == 0.0 then rest else rest / count
  let relative := logOnePlus share + count.log + top
  if isFinite relative then relative else (sum (xs.map Float.exp)).log

end Binary64

instance : WeightScale Weight where
  zero := ⟨0.0⟩
  one := ⟨1.0⟩
  mul a b := ⟨a.val * b.val⟩
  quotient a b := ⟨a.val / b.val⟩
  invert a := if a.val == 0.0 then ⟨0.0⟩ else ⟨1.0 / a.val⟩
  total ws := ⟨Binary64.sum (ws.map Weight.val)⟩
  larger a b := ⟨Binary64.larger a.val b.val⟩
  beats candidate best := Binary64.beats candidate.val best.val
  isZero a := a.val == 0.0
  normalizes a := 0.0 < a.val
  isNegative a := a.val < 0.0

instance : WeightScale LogWeight where
  zero := ⟨Binary64.bottom⟩
  one := ⟨0.0⟩
  mul a b := ⟨a.val + b.val⟩
  quotient a b := ⟨a.val - b.val⟩
  invert a := if a.val == Binary64.bottom then a else ⟨-a.val⟩
  total ws := ⟨Binary64.logTotal (ws.map LogWeight.val)⟩
  larger a b := ⟨Binary64.larger a.val b.val⟩
  beats candidate best := Binary64.beats candidate.val best.val
  isZero a := a.val.exp == 0.0
  normalizes a := Binary64.isFinite a.val
  isNegative _ := false

instance : LogConversion Weight LogWeight where
  exp a := ⟨a.val.exp⟩
  exp? a :=
    let w := a.val.exp
    if w.isInf && !a.val.isInf then none else some ⟨w⟩
  log a := ⟨a.val.log⟩
  isBottom a := a.val == Binary64.bottom

end ExactInference
