import ExactInference.Decimal.Layout

/-!
# The fewest digits that read back

A number inside a message is written with as few digits as identify it: the shortest decimal among
the reals that round to the number, and of two equally short ones the nearer, an exact tie to the
even digit. The search tries one digit, then two, and so on; on each decimal grid only the two
neighbours of the exact value can be the answer.
-/

namespace ExactInference.Decimal

/-- Compare `a * 10 ^ i` with `n * 2 ^ j`, exactly. -/
def compareScaled (a : Nat) (i : Int) (n : Nat) (j : Int) : Ordering :=
  compare (a * Nat.pow 10 i.toNat * Nat.pow 2 (-j).toNat)
    (n * Nat.pow 2 j.toNat * Nat.pow 10 (-i).toNat)

/-- Whether `digits * 10 ^ e` lies among the reals that round to `x`; the ends of that interval
belong to it exactly if the mantissa is even. -/
def readsBack (x : Dyadic) (digits : Nat) (e : Int) : Bool :=
  let low := if x.narrowBelow then 4 * x.mantissa - 1 else 4 * x.mantissa - 2
  let endsCount := x.mantissa % 2 == 0
  let lower := compareScaled digits e low (x.exponent - 2)
  let upper := compareScaled digits e (4 * x.mantissa + 2) (x.exponent - 2)
  (lower == .gt || (endsCount && lower == .eq)) && (upper == .lt || (endsCount && upper == .eq))

/-- The digit sequence on the grid `10 ^ e` that reads back, if there is one: of the two
neighbours of the value the nearer, of two equally near ones the even. -/
def onGrid? (x : Dyadic) (e : Int) : Option Nat :=
  let num := x.numerator (-e)
  let den := x.denominator (-e)
  let below := num / den
  let above := below + 1
  match readsBack x below e, readsBack x above e with
  | false, false => none
  | true, false => some below
  | false, true => some above
  | true, true =>
    match compare (2 * num) ((below + above) * den) with
    | .lt => some below
    | .gt => some above
    | .eq => some (if below % 2 = 0 then below else above)

/-- The shortest digits of a positive magnitude and the power of ten of the last of them. Seventeen
digits identify every binary64 number. -/
def shortest (x : Dyadic) : Nat × Int :=
  let lead := leadingExponent x
  let found := (List.range 17).findSome? fun (n : Nat) =>
    (onGrid? x (lead - n)).map fun digits => (digits, lead - (n : Int))
  found.getD (roundQuotient (x.numerator (16 - lead)) (x.denominator (16 - lead)), lead - 16)

/-- Drop zeros at the end of the digits, raising the power of ten. -/
def stripZeros : Nat → Nat × Int → Nat × Int
  | 0, d => d
  | fuel + 1, (digits, e) =>
    if digits ≠ 0 ∧ digits % 10 = 0 then stripZeros fuel (digits / 10, e + 1) else (digits, e)

/-- The shortest text of a magnitude: positional while the leading digit stands at a power of ten
from `-4` up to `15`, always with a place behind the point, and with a power of ten beyond. -/
def shortestText (x : Dyadic) : String :=
  if x.mantissa = 0 then "0.0"
  else
    let (digits, e) := stripZeros 20 (shortest x)
    let count := digitCount digits
    let lead : Int := e + count - 1
    if lead < -4 ∨ 15 < lead then
      pointed digits (count - 1) ++ exponentText lead
    else if e < 0 then pointed digits (-e).toNat
    else toString (digits * Nat.pow 10 e.toNat) ++ ".0"

/-- A number with the fewest digits that read back. -/
def shortestOf (x : Float) : String := written shortestText x

end ExactInference.Decimal
