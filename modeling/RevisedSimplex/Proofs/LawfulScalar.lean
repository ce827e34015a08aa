import RevisedSimplex.Proofs.ExactScalar

/-!
# Zero among the numbers of a solve

Machine numbers have two zeros, infinities and undefined values, and hardly any law of a field
holds of them.  What a factorization relies on is that nothing equal to zero passes as a pivot:
its magnitude is below every positive number.  `LawfulScalar` states this, and both kinds of
machine numbers have the property, as exact numbers do.

For machine numbers it is read off the comparison of their unpacked forms, where zeros of both
signs compare with all others in the same way.
-/

namespace RevisedSimplex

/-- What is equal to zero has a magnitude below every positive number. -/
class LawfulScalar (F : Type) [Scalar F] : Prop where
  magnitude_lt : ∀ {x t : F}, (x == 0) = true → 0 < t → Scalar.magnitude x < t

/-- A number is not zero when its magnitude is not below some positive number. -/
theorem LawfulScalar.beq_zero_eq_false {F : Type} [Scalar F] [LawfulScalar F] {x t : F}
    (ht : 0 < t) (h : ¬ Scalar.magnitude x < t) :
  (x == 0) = false
  := by
  rw [Bool.eq_false_iff]
  intro hzero
  apply h (magnitude_lt hzero ht)

/-- Exact numbers are equal to zero only when they are zero. -/
instance {F : Type} [ExactScalar F] : LawfulScalar F where
  magnitude_lt hzero ht := by
    rw [eq_of_beq hzero, ExactScalar.magnitude_eq_abs, abs_zero]
    apply ht

/-! ### Machine numbers -/

open Float.Model (UnpackedFloat)

/-- Only the zeros compare as equal to a zero. -/
theorem exists_eq_zero {x : UnpackedFloat} {sign : UnpackedFloat.Sign}
    (h : x.beq (.zero sign) = true) :
  ∃ other, x = .zero other
  := by
  cases x with
  | infinity other => cases other <;> cases h
  | notANumber => cases h
  | zero other => exact ⟨other, rfl⟩
  | finite other mantissa exponent hmantissa => cases other <;> cases h

/-- All zeros are below the same numbers. -/
theorem zero_lt_of_zero_lt {x : UnpackedFloat} {sign other : UnpackedFloat.Sign}
    (h : UnpackedFloat.lt (.zero sign) x = true) :
  UnpackedFloat.lt (.zero other) x = true
  := by
  cases x with
  | infinity sign => cases sign <;> exact h
  | notANumber => cases h
  | zero sign => cases h
  | finite sign mantissa exponent hmantissa => cases sign <;> exact h

/-- The same numbers are at most one zero and another. -/
theorem le_zero_of_le_zero {x : UnpackedFloat} {sign other : UnpackedFloat.Sign}
    (h : UnpackedFloat.le x (.zero sign) = true) :
  UnpackedFloat.le x (.zero other) = true
  := by
  cases x with
  | infinity sign => cases sign <;> exact h
  | notANumber => cases h
  | zero sign => rfl
  | finite sign mantissa exponent hmantissa => cases sign <;> exact h

/-- No zero is below another one. -/
theorem not_zero_lt_zero (sign other : UnpackedFloat.Sign) :
  ¬ UnpackedFloat.lt (.zero sign) (.zero other) = true
  := Bool.false_ne_true

/-- Numbers that are compared by their unpacked forms have the property. -/
theorem magnitude_lt_of_unpack {F : Type} [Scalar F] (unpack : F → UnpackedFloat)
    (hlt : ∀ x y : F, x < y ↔ UnpackedFloat.lt (unpack x) (unpack y) = true)
    (hbeq : ∀ x : F, (x == 0) = UnpackedFloat.beq (unpack x) (.zero .positive))
    (hunpack : unpack 0 = .zero .positive) {x t : F} (hzero : (x == 0) = true) (ht : 0 < t) :
  Scalar.magnitude x < t
  := by
  rw [hbeq] at hzero
  rw [hlt, hunpack] at ht
  obtain ⟨sign, hsign⟩ := exists_eq_zero hzero
  have hnonneg : ¬ x < 0 := by
    rw [hlt, hsign, hunpack]
    apply not_zero_lt_zero
  unfold Scalar.magnitude
  rw [if_neg hnonneg, hlt, hsign]
  apply zero_lt_of_zero_lt ht

instance : LawfulScalar Float where
  magnitude_lt := magnitude_lt_of_unpack (fun x => x.toModel.unpack)
    (fun _ _ => decide_eq_true_iff) (fun _ => rfl) rfl

instance : LawfulScalar Float32 where
  magnitude_lt := magnitude_lt_of_unpack (fun x => x.toModel.unpack)
    (fun _ _ => decide_eq_true_iff) (fun _ => rfl) rfl

/-! ### Zero and itself -/

/-- Zero is equal to itself. -/
class ReflexiveZero (F : Type) [Scalar F] : Prop where
  zero_beq_zero : ((0 : F) == 0) = true

instance {F : Type} [ExactScalar F] : ReflexiveZero F where
  zero_beq_zero := beq_self_eq_true 0

instance : ReflexiveZero Float where
  zero_beq_zero := by decide +kernel

instance : ReflexiveZero Float32 where
  zero_beq_zero := by decide +kernel

/-! ### Zero and one -/

/-- One is not equal to zero. -/
class NontrivialScalar (F : Type) [Scalar F] : Prop where
  one_beq_zero : ((1 : F) == 0) = false

instance {F : Type} [ExactScalar F] : NontrivialScalar F where
  one_beq_zero := beq_eq_false_iff_ne.mpr one_ne_zero

instance : NontrivialScalar Float where
  one_beq_zero := by decide +kernel

instance : NontrivialScalar Float32 where
  one_beq_zero := by decide +kernel

/-! ### Zeros of both signs -/

/-- Numbers whose zeros are alike: the opposite of a zero is a zero and that of another number is
not, and what is at most the magnitude of a zero is not positive. -/
class SymmetricZero (F : Type) [Scalar F] : Prop where
  neg_beq_zero : ∀ x : F, (-x == 0) = (x == 0)
  le_zero : ∀ {x y : F}, (x == 0) = true → y ≤ Scalar.magnitude x → y ≤ 0

instance {F : Type} [ExactScalar F] : SymmetricZero F where
  neg_beq_zero x := by simp
  le_zero hzero h := by
    rw [eq_of_beq hzero, ExactScalar.magnitude_eq_abs, abs_zero] at h
    apply h

end RevisedSimplex
