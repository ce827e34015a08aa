import RevisedSimplex.Context
import RevisedSimplex.Decimal.Binary
import Mathlib.Algebra.Order.Field.Basic
import Mathlib.Algebra.Order.Ring.Rat
import Mathlib.Tactic.Linarith
import Mathlib.Tactic.Positivity

/-!
# Exact numbers

`ExactScalar F` says that the numbers of a solve form an ordered field, all of them finite, so
that nothing is rounded.  The conversion from doubles and the machine epsilon stay open, except
that the conversion respects signs.

The derived operations of a scalar are those of the field: `magnitude` is the absolute value,
`larger` and `smaller` are maximum and minimum.  The rational numbers are exact scalars.
-/

namespace RevisedSimplex

/-- An ordered field as the numbers of a solve. -/
class ExactScalar (F : Type) extends Field F, LinearOrder F, IsStrictOrderedRing F where
  /-- What stands for the machine epsilon. -/
  epsilon : F
  /-- The number for a double of the settings. -/
  ofFloat : Float → F
  /-- The double for a report. -/
  toFloat : F → Float
  /-- The conversion keeps finite doubles from becoming negative. -/
  ofFloat_nonneg : ∀ x : Float, x.isFinite = true → ¬ x < 0 → 0 ≤ ofFloat x
  /-- The conversion keeps positive doubles positive. -/
  ofFloat_pos : ∀ x : Float, 0 < x → 0 < ofFloat x

namespace ExactScalar

/-- Exact numbers are scalars, all of them finite. -/
instance toScalar {F : Type} [ExactScalar F] : Scalar F where
  zero_le_zero := le_refl 0
  isFinite _ := true
  isNaN _ := false
  epsilon := epsilon
  ofFloat := ofFloat
  toFloat := toFloat

variable {F : Type} [ExactScalar F]

/-! ### Derived operations -/

@[simp]
theorem isFinite_eq_true (x : F) :
  Scalar.isFinite x = true
  := rfl

@[simp]
theorem isNaN_eq_false (x : F) :
  Scalar.isNaN x = false
  := rfl

@[simp]
theorem magnitude_eq_abs (x : F) :
  Scalar.magnitude x = |x|
  := by
  unfold Scalar.magnitude
  split
  · rename_i h
    rw [abs_of_neg h]
  · rename_i h
    rw [abs_of_nonneg (not_lt.mp h)]

@[simp]
theorem larger_eq_max (x y : F) :
  Scalar.larger x y = max x y
  := by
  simp only [Scalar.larger, isNaN_eq_false, Bool.false_eq_true, if_false]
  split
  · rename_i h
    rw [max_eq_right h.le]
  · rename_i h
    rw [max_eq_left (not_lt.mp h)]

@[simp]
theorem smaller_eq_min (x y : F) :
  Scalar.smaller x y = min x y
  := by
  simp only [Scalar.smaller, isNaN_eq_false, Bool.false_eq_true, if_false]
  split
  · rename_i h
    rw [min_eq_right h.le]
  · rename_i h
    rw [min_eq_left (not_lt.mp h)]

@[simp]
theorem emptySum_eq_zero :
  (Scalar.emptySum : F) = 0
  := neg_zero

/-- A number times its sign is its absolute value. -/
theorem signOf_mul_self (x : F) :
  Scalar.signOf x * x = |x|
  := by
  unfold Scalar.signOf
  split
  · rename_i h
    rw [abs_of_neg h, neg_one_mul]
  · rename_i h
    rw [abs_of_nonneg (not_lt.mp h), one_mul]

end ExactScalar

/-! ### Rational numbers -/

/-- The absolute value of a finite double, zero for the others. -/
def BinaryNumber.magnitude : BinaryNumber → ℚ
  | finite _ mantissa exponent =>
      (mantissa * 2 ^ exponent.toNat : ℕ) / (2 ^ (-exponent).toNat : ℕ)
  | _ => 0

theorem BinaryNumber.magnitude_nonneg (number : BinaryNumber) :
  0 ≤ number.magnitude
  := by
  cases number with
  | finite _ mantissa exponent =>
      unfold magnitude
      positivity
  | _ => exact le_refl 0

/-- Rational numbers, with the value of a double as its conversion.  No positive double is below
`2 ^ (-1074)`. -/
instance : ExactScalar ℚ where
  epsilon := 1 / 2 ^ 52
  ofFloat x :=
    if 0 < x then max (1 / 2 ^ 1074) (BinaryNumber.ofFloat x).magnitude
    else if x < 0 then -(BinaryNumber.ofFloat x).magnitude
    else (BinaryNumber.ofFloat x).magnitude
  toFloat x := Float.ofInt x.num / Float.ofNat x.den
  ofFloat_nonneg x _ h := by
    split
    · apply le_max_of_le_right
      apply BinaryNumber.magnitude_nonneg
    · apply BinaryNumber.magnitude_nonneg
  ofFloat_pos x h := by
    rw [if_pos h]
    apply lt_max_of_lt_left
    positivity

end RevisedSimplex
