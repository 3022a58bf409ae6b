import ExactInference.Decimal.Dyadic

/-!
# Decimal text with a given precision

Three layouts of an exactly read number: a fixed number of places, one leading digit with a power
of ten, and a number of significant digits with trailing zeros dropped. Each rounds the exact
value once, and a tie goes to the even neighbour.
-/

namespace ExactInference.Decimal

/-- The quotient of two naturals rounded to the nearest natural, a tie to the even one. -/
def roundQuotient (num den : Nat) : Nat :=
  let q := num / den
  match compare (2 * (num % den)) den with
  | .lt => q
  | .gt => q + 1
  | .eq => if q % 2 = 0 then q else q + 1

/-- The number of decimal digits of a natural; zero has one. -/
def digitCount (n : Nat) : Nat := (toString n).length

/-- The power of ten of the leading digit of a positive magnitude. -/
def leadingExponent (x : Dyadic) : Int :=
  let num := x.numerator 0
  let den := x.denominator 0
  let d : Int := (digitCount num : Int) - digitCount den
  if num * Nat.pow 10 (-d).toNat ≥ den * Nat.pow 10 d.toNat then d else d - 1

/-- Digits padded with zeros on the left. -/
def padded (width n : Nat) : String :=
  let digits := toString n
  String.ofList (List.replicate (width - digits.length) '0') ++ digits

/-- Set the point so that the last `places` digits stand behind it. -/
def pointed (digits places : Nat) : String :=
  let text := (padded (places + 1) digits).toList
  let whole := text.take (text.length - places)
  if places = 0 then String.ofList whole
  else String.ofList whole ++ "." ++ String.ofList (text.drop (text.length - places))

/-- A signed power of ten with at least two digits. -/
def exponentText (e : Int) : String :=
  (if e < 0 then "e-" else "e+") ++ padded 2 e.natAbs

/-- A magnitude with a fixed number of places. -/
def fixedText (places : Nat) (x : Dyadic) : String :=
  pointed (roundQuotient (x.numerator places) (x.denominator places)) places

/-- The digits and the power of ten of a magnitude rounded to one leading digit and `places` more.
-/
def scientificDigits (places : Nat) (x : Dyadic) : Nat × Int :=
  if x.mantissa = 0 then (0, 0)
  else
    let e := leadingExponent x
    let digits := roundQuotient (x.numerator (places - e)) (x.denominator (places - e))
    if digits = Nat.pow 10 (places + 1) then (Nat.pow 10 places, e + 1) else (digits, e)

/-- A magnitude with one leading digit, `places` more and a power of ten. -/
def scientificText (places : Nat) (x : Dyadic) : String :=
  let (digits, e) := scientificDigits places x
  pointed digits places ++ exponentText e

/-- Drop the zeros at the end of a text with a point, and the point if nothing is left behind it. -/
def dropTrailingZeros (text : String) : String :=
  if text.toList.contains '.' then
    let kept := text.toList.reverse.dropWhile (· = '0')
    String.ofList ((if kept.head? = some '.' then kept.drop 1 else kept).reverse)
  else text

/-- A magnitude with `precision` significant digits, trailing zeros dropped: positional while the
leading digit stands at a power of ten from `-4` up to `precision - 1`, with a power of ten
beyond. -/
def significantText (precision : Nat) (x : Dyadic) : String :=
  let (digits, e) := scientificDigits (precision - 1) x
  if e < -4 ∨ (precision : Int) ≤ e then
    dropTrailingZeros (pointed digits (precision - 1)) ++ exponentText e
  else
    dropTrailingZeros (fixedText ((precision : Int) - 1 - e).toNat x)

/-- Write a number by writing its magnitude, with words for the special values. -/
def written (magnitude : Dyadic → String) (x : Float) : String :=
  match read x with
  | .nan => "nan"
  | .infinite negative => if negative then "-inf" else "inf"
  | .finite negative m => (if negative then "-" else "") ++ magnitude m

end ExactInference.Decimal
