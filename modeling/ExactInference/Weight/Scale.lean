/-!
# Scales on which weights are written

A table holds one number per joint state. The number may be the weight itself or its logarithm,
and it may be rounded or exact; the algorithms only need the operations of a `WeightScale`. Two
scales whose numbers stand for the same weights are tied together by a `LogConversion`.
-/

namespace ExactInference

/-- The operations that a table needs of its numbers, each named for what it does to the weights. -/
class WeightScale (α : Type) where
  /-- The weight zero. -/
  zero : α
  /-- The weight one. -/
  one : α
  /-- The product of two weights. -/
  mul : α → α → α
  /-- The quotient of two weights. -/
  quotient : α → α → α
  /-- The inverse of a weight; the weight zero stays zero. -/
  invert : α → α
  /-- The sum of weights; the weight zero if there are none. -/
  total : List α → α
  /-- The larger of two weights. -/
  larger : α → α → α
  /-- Whether a later candidate replaces the best one so far. -/
  beats : (candidate best : α) → Bool
  /-- Whether a number stands for the weight zero. -/
  isZero : α → Bool
  /-- Whether a total can be divided out of a table. -/
  normalizes : α → Bool
  /-- Whether a number stands for no weight because it is below zero. -/
  isNegative : α → Bool

namespace WeightScale

variable {α : Type} [WeightScale α]

/-- The largest of several weights; the weight zero if there are none. -/
def largest : List α → α
  | [] => zero
  | w :: ws => ws.foldl larger w

/-- One of `n` equal parts of the weight one. -/
def share (n : Nat) : α := quotient one (total (List.replicate n one))

end WeightScale

/-- The passage between the weights `W` and their logarithms `L`. -/
class LogConversion (W L : Type) [WeightScale W] [WeightScale L] where
  /-- The weight of a logarithm. -/
  exp : L → W
  /-- The weight of a logarithm, unless it is too large to be written. -/
  exp? : L → Option W
  /-- The logarithm of a weight. -/
  log : W → L
  /-- Whether a number is the logarithm of the weight zero. -/
  isBottom : L → Bool

namespace LogConversion

variable {W L : Type} [WeightScale W] [WeightScale L] [LogConversion W L]

/-- The logarithm of a positive weight; what is not positive counts as the weight zero. -/
def logPositive (w : W) : L :=
  if WeightScale.normalizes w then LogConversion.log w else WeightScale.zero

end LogConversion

end ExactInference
