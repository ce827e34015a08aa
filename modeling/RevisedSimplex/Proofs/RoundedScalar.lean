import RevisedSimplex.Proofs.LawfulScalar

/-!
# Rounded numbers

A solve relies on a few facts about rounded sums.  Taking off what is not negative does not lead
above a number, and adding it does not lead below; the difference to a smaller number is positive,
however small it is; and a distance between two bounds that is not finite stays out of reach.
`RoundedScalar` states these, together with the sign that a conversion keeps, and exact numbers have
them.
-/

namespace RevisedSimplex

/-- Numbers whose sums are rounded without turning the order around, a distance between bounds that
is not finite being out of reach. -/
class RoundedScalar (F : Type) [Scalar F] : Prop extends LawfulScalar F, ReflexiveZero F where
  lt_of_lt_sub : ∀ {x y t : F}, 0 ≤ t → x < y - t → x < y
  lt_of_add_lt : ∀ {x y t : F}, 0 ≤ t → x + t < y → x < y
  sub_pos : ∀ {x y : F}, x < y → 0 < y - x
  not_sub_lt : ∀ {l u : F}, l ≤ u → Scalar.isFinite (u - l) = false →
    ∀ x y : F, ¬ u - l - x < y
  ofFloat_nonneg : ∀ {x : Float}, x.isFinite = true → ¬ x < 0 → 0 ≤ (Scalar.ofFloat x : F)

instance {F : Type} [ExactScalar F] : RoundedScalar F where
  lt_of_lt_sub ht h := h.trans_le (sub_le_self _ ht)
  lt_of_add_lt ht h := (le_add_of_nonneg_right ht).trans_lt h
  sub_pos h := sub_pos.mpr h
  not_sub_lt _ hinfinite := by
    rw [ExactScalar.isFinite_eq_true] at hinfinite
    cases hinfinite
  ofFloat_nonneg hfinite h := ExactScalar.ofFloat_nonneg _ hfinite h

/-! ### Distances -/

/-- Numbers with a distance between any two finite ones.  What is finite or not negative is
defined. -/
class MeasuredScalar (F : Type) [Scalar F] : Prop where
  isFinite_zero : Scalar.isFinite (0 : F) = true
  isFinite_neg : ∀ x : F, Scalar.isFinite (-x) = Scalar.isFinite x
  isNaN_of_isFinite : ∀ {x : F}, Scalar.isFinite x = true → Scalar.isNaN x = false
  isNaN_of_nonneg : ∀ {x : F}, 0 ≤ x → Scalar.isNaN x = false
  sub_nonneg : ∀ {l u : F}, Scalar.isFinite l = true → Scalar.isFinite u = true → l ≤ u →
    0 ≤ u - l

instance {F : Type} [ExactScalar F] : MeasuredScalar F where
  isFinite_zero := rfl
  isFinite_neg _ := rfl
  isNaN_of_isFinite _ := rfl
  isNaN_of_nonneg _ := rfl
  sub_nonneg _ _ h := sub_nonneg.mpr h

/-! ### Settings -/

/-- The context of accepted settings. -/
theorem Context.ofSettings_eq_ok {F : Type} [Scalar F] {settings : Settings} {context : Context F}
    (h : ofSettings settings = .ok context) :
  settings.fault? = none ∧ context = convert settings
  := by
  unfold ofSettings at h
  cases hfault : settings.fault? with
  | some fault =>
      rw [hfault] at h
      cases h
  | none =>
      rw [hfault] at h
      cases h
      exact ⟨rfl, rfl⟩

/-- Settings without a fault are accepted. -/
theorem Context.ofSettings_eq_convert {F : Type} [Scalar F] {settings : Settings}
    (h : settings.fault?.isNone = true) :
  ofSettings settings = .ok (convert settings : Context F)
  := by
  unfold ofSettings
  rw [Option.isNone_iff_eq_none.mp h]

end RevisedSimplex
