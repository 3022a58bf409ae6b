/-!
# Binary numbers read exactly

A binary64 number is a sign, a mantissa and a power of two, or one of the special values.
Everything that is written in decimal starts from that exact reading, so that no rounding happens
before the one that the decimal form asks for.
-/

namespace ExactInference.Decimal

/-- The exact magnitude `mantissa * 2 ^ exponent` of a finite binary64 number. -/
structure Dyadic where
  /-- The integer factor. -/
  mantissa : Nat
  /-- The power of two. -/
  exponent : Int
  /-- Whether the gap to the next smaller magnitude is half the gap to the next larger one. -/
  narrowBelow : Bool
deriving DecidableEq, Repr

namespace Dyadic

/-- The magnitude times `10 ^ places`, as a numerator. -/
def numerator (x : Dyadic) (places : Int) : Nat :=
  x.mantissa * Nat.pow 2 x.exponent.toNat * Nat.pow 10 places.toNat

/-- The denominator that goes with `numerator`. -/
def denominator (x : Dyadic) (places : Int) : Nat :=
  Nat.pow 2 (-x.exponent).toNat * Nat.pow 10 (-places).toNat

/-- The whole part of the magnitude. -/
def wholePart (x : Dyadic) : Nat := x.numerator 0 / x.denominator 0

end Dyadic

/-- What a binary64 number stands for. -/
inductive Reading where
  /-- No number. -/
  | nan
  /-- Beyond every number, on the negative side or on the positive side. -/
  | infinite (negative : Bool)
  /-- A sign and an exact magnitude. -/
  | finite (negative : Bool) (magnitude : Dyadic)
deriving DecidableEq, Repr

/-- Read the bits of a binary64 number. -/
def readBits (bits : UInt64) : Reading :=
  let negative := bits >>> 63 != 0
  let e := ((bits >>> 52) &&& 0x7FF).toNat
  let f := (bits &&& 0xFFFFFFFFFFFFF).toNat
  if e = 0x7FF then
    if f = 0 then .infinite negative else .nan
  else if e = 0 then
    .finite negative ⟨f, -1074, false⟩
  else
    .finite negative ⟨Nat.pow 2 52 + f, (e : Int) - 1075, f = 0 && e > 1⟩

/-- Read a binary64 number. -/
def read (x : Float) : Reading := readBits x.toBits

end ExactInference.Decimal
