import Mathlib.Algebra.Order.Field.Canonical
import Mathlib.Analysis.SpecialFunctions.Log.Basic
import Mathlib.Algebra.Order.Ring.NNRat
import Mathlib.Data.NNReal.Defs
import ExactInference.Weight.Scale

/-!
# Exact weights

The algorithms read a table only through the operations of its scale. A scale is exact if these
operations are those of an ordered semifield without negative numbers, and logarithms are exact if
`exp` takes them onto such weights and turns their operations into those of the weights. Division is
only asked to be right where the divisor is not zero; the inverse of zero is zero, as in every
semifield of the library. Rounding, infinities and what is no number are no part of an exact scale.

Rational and real weights are exact, and so are real logarithms with a bottom element for the
weight zero.
-/

namespace ExactInference

/-- The operations of a scale are those of a semifield whose numbers are all at least zero. -/
class ExactScale (W : Type) [Semifield W] [LinearOrder W] [WeightScale W] : Prop where
  /-- The weight zero is zero. -/
  zero_eq : (WeightScale.zero : W) = 0
  /-- The weight one is one. -/
  one_eq : (WeightScale.one : W) = 1
  /-- Products are exact. -/
  mul_eq : ∀ a b : W, WeightScale.mul a b = a * b
  /-- Quotients by positive weights are exact. -/
  quotient_eq : ∀ a b : W, b ≠ 0 → WeightScale.quotient a b = a / b
  /-- Inverses are exact, and zero stays zero. -/
  invert_eq : ∀ a : W, WeightScale.invert a = a⁻¹
  /-- Totals are exact. -/
  total_eq : ∀ ws : List W, WeightScale.total ws = ws.sum
  /-- The larger weight is the maximum. -/
  larger_eq : ∀ a b : W, WeightScale.larger a b = max a b
  /-- Only a strictly larger candidate replaces the best one. -/
  beats_iff : ∀ a b : W, WeightScale.beats a b = true ↔ b < a
  /-- Zero is recognized. -/
  isZero_iff : ∀ a : W, WeightScale.isZero a = true ↔ a = 0
  /-- Every total but zero can be divided out. -/
  normalizes_iff : ∀ a : W, WeightScale.normalizes a = true ↔ a ≠ 0

attribute [simp] ExactScale.zero_eq ExactScale.one_eq ExactScale.mul_eq ExactScale.invert_eq
  ExactScale.total_eq ExactScale.larger_eq ExactScale.beats_iff ExactScale.isZero_iff
  ExactScale.normalizes_iff

open LogConversion in
/-- The passage to logarithms is an exact isomorphism onto the weights. -/
class ExactLog (W L : Type) [Semifield W] [LinearOrder W] [WeightScale W] [WeightScale L]
    [LogConversion W L] : Prop where
  /-- Every weight has a logarithm. -/
  exp_log : ∀ w : W, exp (log w : L) = w
  /-- A logarithm is determined by its weight. -/
  exp_injective : Function.Injective (exp : L → W)
  /-- No weight is too large to be written. -/
  exp?_eq : ∀ x : L, exp? x = some (exp x : W)
  /-- The logarithm of the weight zero. -/
  exp_zero : exp (WeightScale.zero : L) = (0 : W)
  /-- The logarithm of the weight one. -/
  exp_one : exp (WeightScale.one : L) = (1 : W)
  /-- Products of weights. -/
  exp_mul : ∀ x y : L, exp (WeightScale.mul x y) = (exp x * exp y : W)
  /-- Quotients by positive weights. -/
  exp_quotient : ∀ x y : L, (exp y : W) ≠ 0 → exp (WeightScale.quotient x y) = (exp x / exp y : W)
  /-- Inverses of weights. -/
  exp_invert : ∀ x : L, exp (WeightScale.invert x) = (exp x : W)⁻¹
  /-- Totals of weights. -/
  exp_total : ∀ xs : List L, exp (WeightScale.total xs) = (xs.map (exp : L → W)).sum
  /-- The larger of two weights. -/
  exp_larger : ∀ x y : L, exp (WeightScale.larger x y) = max (exp x : W) (exp y)
  /-- Candidates compare as their weights do. -/
  beats_iff : ∀ x y : L, WeightScale.beats x y = true ↔ (exp y : W) < exp x
  /-- The weight zero is recognized. -/
  isZero_iff : ∀ x : L, WeightScale.isZero x = true ↔ (exp x : W) = 0
  /-- Every total but the weight zero can be divided out. -/
  normalizes_iff : ∀ x : L, WeightScale.normalizes x = true ↔ (exp x : W) ≠ 0
  /-- The logarithm of the weight zero is recognized. -/
  isBottom_iff : ∀ x : L, isBottom W x = true ↔ (exp x : W) = 0

attribute [simp] ExactLog.exp_log ExactLog.exp?_eq ExactLog.exp_zero ExactLog.exp_one
  ExactLog.exp_mul ExactLog.exp_invert ExactLog.exp_total ExactLog.exp_larger ExactLog.isBottom_iff

namespace ExactScale

/-- The scale whose operations are those of a semifield. -/
abbrev ofSemifield (W : Type) [Semifield W] [LinearOrder W] : WeightScale W where
  zero := 0
  one := 1
  mul a b := a * b
  quotient a b := a / b
  invert a := a⁻¹
  total ws := ws.sum
  larger a b := max a b
  beats a b := decide (b < a)
  isZero a := decide (a = 0)
  normalizes a := decide (a ≠ 0)
  isNegative _ := false

/-- Rational weights. -/
instance : WeightScale ℚ≥0 := ofSemifield ℚ≥0

instance : ExactScale ℚ≥0 := by
  constructor <;> intros <;> simp [WeightScale.zero, WeightScale.one, WeightScale.mul,
    WeightScale.quotient, WeightScale.invert, WeightScale.total, WeightScale.larger,
    WeightScale.beats, WeightScale.isZero, WeightScale.normalizes]

/-- Real weights. -/
noncomputable instance : WeightScale NNReal := ofSemifield NNReal

instance : ExactScale NNReal := by
  constructor <;> intros <;> simp [WeightScale.zero, WeightScale.one, WeightScale.mul,
    WeightScale.quotient, WeightScale.invert, WeightScale.total, WeightScale.larger,
    WeightScale.beats, WeightScale.isZero, WeightScale.normalizes]

end ExactScale

/-- A logarithm that is written down as the weight it stands for. -/
structure FormalLog (W : Type) where
  /-- The weight. -/
  weight : W
deriving DecidableEq

namespace FormalLog

variable (W : Type) [Semifield W] [LinearOrder W]

instance : WeightScale (FormalLog W) where
  zero := ⟨0⟩
  one := ⟨1⟩
  mul x y := ⟨x.weight * y.weight⟩
  quotient x y := ⟨x.weight / y.weight⟩
  invert x := ⟨x.weight⁻¹⟩
  total xs := ⟨(xs.map weight).sum⟩
  larger x y := ⟨max x.weight y.weight⟩
  beats x y := decide (y.weight < x.weight)
  isZero x := decide (x.weight = 0)
  normalizes x := decide (x.weight ≠ 0)
  isNegative _ := false

variable [WeightScale W]

instance : LogConversion W (FormalLog W) where
  exp x := x.weight
  exp? x := some x.weight
  log w := ⟨w⟩
  isBottom x := decide (x.weight = 0)

instance : ExactLog W (FormalLog W) where
  exp_log _ := rfl
  exp_injective x y h := by
    cases x
    cases y
    exact congrArg mk h
  exp?_eq _ := rfl
  exp_zero := rfl
  exp_one := rfl
  exp_mul _ _ := rfl
  exp_quotient _ _ _ := rfl
  exp_invert _ := rfl
  exp_total _ := rfl
  exp_larger _ _ := rfl
  beats_iff _ _ := decide_eq_true_iff
  isZero_iff _ := decide_eq_true_iff
  normalizes_iff _ := decide_eq_true_iff
  isBottom_iff _ := decide_eq_true_iff

end FormalLog

/-- Real logarithms, with a bottom element for the weight zero. -/
structure RealLog where
  /-- The number, none for the weight zero. -/
  val : WithBot ℝ

namespace RealLog

/-- The weight of a logarithm. -/
noncomputable def exp : RealLog → NNReal
  | ⟨⊥⟩ => 0
  | ⟨(x : ℝ)⟩ => ⟨Real.exp x, (Real.exp_pos x).le⟩

/-- The logarithm of a weight. -/
noncomputable def log (w : NNReal) : RealLog := if w = 0 then ⟨⊥⟩ else ⟨Real.log w⟩

theorem exp_log (w : NNReal) : exp (log w) = w := by
  by_cases h : w = 0
  · simp [log, h, exp]
  · have hpos : (0 : ℝ) < w := by exact_mod_cast pos_iff_ne_zero.mpr h
    simp only [log, h, if_false, exp]
    exact Subtype.ext (Real.exp_log hpos)

theorem log_exp (x : RealLog) : log (exp x) = x := by
  rcases x with ⟨_ | x⟩
  · exact if_pos rfl
  · have hne : exp ⟨(x : ℝ)⟩ ≠ 0 := fun h => (Real.exp_pos x).ne' (congrArg Subtype.val h)
    change log (exp ⟨(x : ℝ)⟩) = ⟨(x : ℝ)⟩
    rw [log, if_neg hne]
    exact congrArg (fun r : ℝ => (⟨r⟩ : RealLog)) (Real.log_exp x)

/-- Sums of logarithms are products of weights, and sums of weights are taken by their exponentials.
-/
noncomputable instance : WeightScale RealLog where
  zero := ⟨⊥⟩
  one := ⟨(0 : ℝ)⟩
  mul x y := ⟨x.val + y.val⟩
  quotient x y := ⟨x.val + y.val.map (-·)⟩
  invert x := ⟨x.val.map (-·)⟩
  total xs := log (xs.map exp).sum
  larger x y := ⟨max x.val y.val⟩
  beats x y := decide (y.val < x.val)
  isZero x := decide (x.val = ⊥)
  normalizes x := decide (x.val ≠ ⊥)
  isNegative _ := false

noncomputable instance : LogConversion NNReal RealLog where
  exp := exp
  exp? x := some (exp x)
  log := log
  isBottom x := decide (x.val = ⊥)

theorem exp_eq_zero_iff (x : RealLog) : exp x = 0 ↔ x.val = ⊥ := by
  rcases x with ⟨_ | x⟩
  · exact ⟨fun _ => rfl, fun _ => rfl⟩
  · have hne : exp ⟨(x : ℝ)⟩ ≠ 0 := fun h => (Real.exp_pos x).ne' (congrArg Subtype.val h)
    exact ⟨fun h => absurd h hne, fun h => absurd h (WithBot.coe_ne_bot)⟩

/-- Logarithms are ordered as their weights. -/
theorem exp_lt_exp_iff (x y : RealLog) : exp x < exp y ↔ x.val < y.val := by
  rcases x with ⟨_ | x⟩ <;> rcases y with ⟨_ | y⟩
  · exact ⟨fun h => absurd h (lt_irrefl _), fun h => absurd h (lt_irrefl _)⟩
  · exact ⟨fun _ => WithBot.bot_lt_coe y, fun _ => Real.exp_pos y⟩
  · exact ⟨fun h => absurd h (not_lt_bot (a := exp ⟨(x : ℝ)⟩)), fun h => absurd h not_lt_bot⟩
  · exact Real.exp_lt_exp.trans WithBot.coe_lt_coe.symm

theorem exp_mul (x y : RealLog) : exp ⟨x.val + y.val⟩ = exp x * exp y := by
  rcases x with ⟨_ | x⟩ <;> rcases y with ⟨_ | y⟩
  · exact (zero_mul _).symm
  · exact (zero_mul _).symm
  · exact (mul_zero _).symm
  · exact Subtype.ext (Real.exp_add x y)

theorem exp_neg (x : RealLog) : exp ⟨x.val.map (-·)⟩ = (exp x)⁻¹ := by
  rcases x with ⟨_ | x⟩
  · exact inv_zero.symm
  · exact Subtype.ext (Real.exp_neg x)

theorem exp_max (x y : RealLog) : exp ⟨max x.val y.val⟩ = max (exp x) (exp y) := by
  rcases lt_or_ge x.val y.val with h | h
  · have he := (exp_lt_exp_iff x y).2 h
    rw [max_eq_right h.le, max_eq_right he.le]
  · have he : exp y ≤ exp x := not_lt.1 fun hlt => absurd ((exp_lt_exp_iff x y).1 hlt) (not_lt.2 h)
    rw [max_eq_left h, max_eq_left he]

instance : ExactLog NNReal RealLog where
  exp_log := exp_log
  exp_injective := Function.LeftInverse.injective log_exp
  exp?_eq _ := rfl
  exp_zero := rfl
  exp_one := Subtype.ext Real.exp_zero
  exp_mul := exp_mul
  exp_quotient x y _ := by
    change exp ⟨x.val + y.val.map (-·)⟩ = exp x / exp y
    rw [div_eq_mul_inv, ← exp_neg]
    exact exp_mul x ⟨y.val.map (-·)⟩
  exp_invert := exp_neg
  exp_total xs := exp_log _
  exp_larger := exp_max
  beats_iff x y := decide_eq_true_iff.trans (exp_lt_exp_iff y x).symm
  isZero_iff x := decide_eq_true_iff.trans (exp_eq_zero_iff x).symm
  normalizes_iff x := decide_eq_true_iff.trans (exp_eq_zero_iff x).symm.not
  isBottom_iff x := decide_eq_true_iff.trans (exp_eq_zero_iff x).symm

end RealLog

end ExactInference
