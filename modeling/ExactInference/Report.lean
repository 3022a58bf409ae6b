import ExactInference.Decimal.Layout
import ExactInference.Weight.Binary64

/-!
# Weights in answers

Weights are reported with nine significant digits and a power of ten, zero of either sign as a
bare digit. Logarithms are reported with nine places while they are smaller than sixteen, so that
a logarithm that rounds to zero has no sign, and like weights beyond.
-/

namespace ExactInference

/-- The text of a weight. -/
def Weight.text (w : Weight) : String :=
  if w.val == 0.0 then "0" else Decimal.written (Decimal.scientificText 8) w.val

/-- The text of the logarithm of a weight. -/
def LogWeight.text (w : LogWeight) : String :=
  if w.val.abs < 16.0 then
    let places := Decimal.written (Decimal.fixedText 9) w.val
    if places = "-0.000000000" then "0.000000000" else places
  else Decimal.written (Decimal.scientificText 8) w.val

/-- The text of a logarithm with six significant digits, as set descriptions show it. -/
def LogWeight.brief (w : LogWeight) : String :=
  Decimal.written (Decimal.significantText 6) w.val

end ExactInference
