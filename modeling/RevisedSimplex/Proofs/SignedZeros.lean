import RevisedSimplex.Proofs.AdjointSolves
import RevisedSimplex.Proofs.FactorizationAccounts
import RevisedSimplex.Proofs.PackedNumbers

/-!
# Zeros of either sign in a solve

Two numbers are `Alike` when they are the same or both of them zero.  In a sum, a product or a
comparison a zero can be replaced by the other one, and the result is like the one before: this is
what `SignlessZero` states of exact numbers and of both kinds of machine numbers.

A row that is solved for by itself and one of two that are solved for at once come out alike.  The
sums start from zeros of different signs, and the rounding at the end does not tell them apart.
-/

namespace RevisedSimplex

/-- The same number, or zeros that may differ in sign. -/
def Scalar.Alike {F : Type} [Scalar F] (x y : F) : Prop :=
  x = y ∨ (x == 0) = true ∧ (y == 0) = true

/-- Numbers whose zeros can replace each other in the operations of a solve. -/
class SignlessZero (F : Type) [Scalar F] : Prop extends ReflexiveZero F, SymmetricZero F where
  add : ∀ {x x' y y' : F}, Scalar.Alike x x' → Scalar.Alike y y' → Scalar.Alike (x + y) (x' + y')
  mul : ∀ {x x' y y' : F}, Scalar.Alike x x' → Scalar.Alike y y' → Scalar.Alike (x * y) (x' * y')
  lt_iff : ∀ {x x' y y' : F}, Scalar.Alike x x' → Scalar.Alike y y' → (x < y ↔ x' < y')
  isNaN : ∀ {x x' : F}, Scalar.Alike x x' → Scalar.isNaN x = Scalar.isNaN x'

/-! ### Exact numbers -/

section Exact

variable {F : Type} [ExactScalar F] {x y : F}

/-- Exact numbers have one zero. -/
theorem ExactScalar.alike_iff_eq :
  Scalar.Alike x y ↔ x = y
  := by
  constructor
  · rintro (h | ⟨hx, hy⟩)
    · apply h
    · rw [eq_of_beq hx, eq_of_beq hy]
  · apply Or.inl

instance : SignlessZero F where
  add hx hy := by rw [ExactScalar.alike_iff_eq.mp hx, ExactScalar.alike_iff_eq.mp hy]; exact .inl rfl
  mul hx hy := by rw [ExactScalar.alike_iff_eq.mp hx, ExactScalar.alike_iff_eq.mp hy]; exact .inl rfl
  lt_iff hx hy := by rw [ExactScalar.alike_iff_eq.mp hx, ExactScalar.alike_iff_eq.mp hy]
  isNaN _ := rfl

end Exact

/-! ### Machine numbers -/

namespace MachineNumber

open Float.Model (Format UnpackedFloat)
open Float.Model.UnpackedFloat

/-- The same unpacked number, or zeros that may differ in sign. -/
inductive SameUpToSign : UnpackedFloat → UnpackedFloat → Prop
  | refl (p : UnpackedFloat) : SameUpToSign p p
  | zeros (sign other : Sign) : SameUpToSign (.zero sign) (.zero other)

variable {p p' q q' : UnpackedFloat}

/-- The sum of two zeros is one of them. -/
theorem add_zeros (format : Format) (sign other : Sign) :
  ∃ result, UnpackedFloat.add format (.zero sign) (.zero other) = .zero result
  := by
  unfold UnpackedFloat.add
  dsimp only
  split
  · exact ⟨_, rfl⟩
  · exact ⟨_, rfl⟩

namespace SameUpToSign

theorem trans {r : UnpackedFloat} (hpq : SameUpToSign p q) (hqr : SameUpToSign q r) :
  SameUpToSign p r
  := by
  cases hpq with
  | refl => apply hqr
  | zeros sign other => cases hqr <;> apply zeros

/-- An operation can be looked at with a zero on one side at a time. -/
theorem congr {α : Type} {R : α → α → Prop} {op : UnpackedFloat → UnpackedFloat → α}
    (hrefl : ∀ r, R r r) (htrans : ∀ {r s t}, R r s → R s t → R r t)
    (hleft : ∀ s t q, R (op (.zero s) q) (op (.zero t) q))
    (hright : ∀ s t p, R (op p (.zero s)) (op p (.zero t)))
    (hp : SameUpToSign p p') (hq : SameUpToSign q q') :
  R (op p q) (op p' q')
  := by
  cases hp with
  | refl =>
      cases hq with
      | refl => apply hrefl
      | zeros s t => apply hright
  | zeros s t =>
      apply htrans (hleft s t q)
      cases hq with
      | refl => apply hrefl
      | zeros s t => apply hright

/-- What a zero is added to decides what the sum is, unless it is a zero, too. -/
theorem add (format : Format) (hp : SameUpToSign p p') (hq : SameUpToSign q q') :
  SameUpToSign (p.add format q) (p'.add format q')
  := by
  have hzeros (a b c d : Sign) : SameUpToSign (UnpackedFloat.add format (.zero a) (.zero b))
      (UnpackedFloat.add format (.zero c) (.zero d)) := by
    obtain ⟨s, hs⟩ := add_zeros format a b
    obtain ⟨t, ht⟩ := add_zeros format c d
    rw [hs, ht]
    apply zeros
  apply congr refl trans _ _ hp hq
  · intro s t q
    cases q with
    | zero sign => apply hzeros
    | infinity sign => apply refl
    | notANumber => apply refl
    | finite sign mantissa exponent hmantissa => apply refl
  · intro s t p
    cases p with
    | zero sign => apply hzeros
    | infinity sign => apply refl
    | notANumber => apply refl
    | finite sign mantissa exponent hmantissa => apply refl

/-- A product with a zero is a zero, or undefined for zeros of both signs. -/
theorem mul (format : Format) (hp : SameUpToSign p p') (hq : SameUpToSign q q') :
  SameUpToSign (p.mul format q) (p'.mul format q')
  := by
  apply congr refl trans _ _ hp hq
  · intro s t q
    cases q with
    | zero sign => apply zeros
    | infinity sign => apply refl
    | notANumber => apply refl
    | finite sign mantissa exponent hmantissa => apply zeros
  · intro s t p
    cases p with
    | zero sign => apply zeros
    | infinity sign => apply refl
    | notANumber => apply refl
    | finite sign mantissa exponent hmantissa => apply zeros

/-- Zeros of both signs compare with all numbers in the same way. -/
theorem compare_eq (hp : SameUpToSign p p') (hq : SameUpToSign q q') :
  p.compare q = p'.compare q'
  := by
  apply congr Eq.refl Eq.trans _ _ hp hq
  · intro s t q
    cases q with
    | zero sign => rfl
    | infinity sign => cases sign <;> rfl
    | notANumber => rfl
    | finite sign mantissa exponent hmantissa => cases sign <;> rfl
  · intro s t p
    cases p with
    | zero sign => rfl
    | infinity sign => cases sign <;> rfl
    | notANumber => rfl
    | finite sign mantissa exponent hmantissa => cases sign <;> rfl

theorem isNaN_eq (hp : SameUpToSign p p') :
  p.isNaN = p'.isNaN
  := by
  cases hp <;> rfl

end SameUpToSign

namespace Formatted

variable {F : Type} [Scalar F] (formatted : Formatted F) {x x' y y' : F}

theorem same_of_alike (h : Scalar.Alike x x') :
  SameUpToSign (formatted.unpack x) (formatted.unpack x')
  := by
  rcases h with rfl | ⟨hx, hx'⟩
  · apply SameUpToSign.refl
  · rw [formatted.beq_zero] at hx hx'
    obtain ⟨sign, hsign⟩ := exists_eq_zero hx
    obtain ⟨other, hother⟩ := exists_eq_zero hx'
    rw [hsign, hother]
    apply SameUpToSign.zeros

theorem ofUnpacked_zero (sign : Sign) :
  (formatted.ofUnpacked (.zero sign) == 0) = true
  := by
  have hzero := Packed.number sign
    (fits_of_lt formatted.exponentBits (Nat.two_pow_pos formatted.format.mantissaBits))
  rw [ofMagnitude_zero] at hzero
  rw [formatted.beq_zero, formatted.unpack_ofUnpacked, hzero.unpack_pack formatted.exponentBits]
  rfl

theorem alike_ofUnpacked (h : SameUpToSign p p') :
  Scalar.Alike (formatted.ofUnpacked p) (formatted.ofUnpacked p')
  := by
  cases h with
  | refl => apply Or.inl rfl
  | zeros sign other =>
      apply Or.inr ⟨formatted.ofUnpacked_zero sign, formatted.ofUnpacked_zero other⟩

include formatted

theorem alike_add (hx : Scalar.Alike x x') (hy : Scalar.Alike y y') :
  Scalar.Alike (x + y) (x' + y')
  := by
  rw [formatted.add, formatted.add]
  apply formatted.alike_ofUnpacked
  apply (formatted.same_of_alike hx).add _ (formatted.same_of_alike hy)

theorem alike_mul (hx : Scalar.Alike x x') (hy : Scalar.Alike y y') :
  Scalar.Alike (x * y) (x' * y')
  := by
  rw [formatted.mul, formatted.mul]
  apply formatted.alike_ofUnpacked
  apply (formatted.same_of_alike hx).mul _ (formatted.same_of_alike hy)

theorem lt_iff_of_alike (hx : Scalar.Alike x x') (hy : Scalar.Alike y y') :
  x < y ↔ x' < y'
  := by
  rw [formatted.lt_iff, formatted.lt_iff]
  unfold UnpackedFloat.lt
  rw [(formatted.same_of_alike hx).compare_eq (formatted.same_of_alike hy)]

theorem isNaN_of_alike (hx : Scalar.Alike x x') :
  Scalar.isNaN x = Scalar.isNaN x'
  := by
  rw [formatted.isNaN, formatted.isNaN, (formatted.same_of_alike hx).isNaN_eq]

end Formatted

end MachineNumber

instance : SignlessZero Float where
  add := MachineNumber.Formatted.double.alike_add
  mul := MachineNumber.Formatted.double.alike_mul
  lt_iff := MachineNumber.Formatted.double.lt_iff_of_alike
  isNaN := MachineNumber.Formatted.double.isNaN_of_alike

instance : SignlessZero Float32 where
  add := MachineNumber.Formatted.single.alike_add
  mul := MachineNumber.Formatted.single.alike_mul
  lt_iff := MachineNumber.Formatted.single.lt_iff_of_alike
  isNaN := MachineNumber.Formatted.single.isNaN_of_alike

/-! ### Derived operations -/

/-- Conditionals whose conditions say the same. -/
theorem rel_ite {α : Type} {R : α → α → Prop} {P Q : Prop} [Decidable P] [Decidable Q]
    {a b c d : α} (hcondition : P ↔ Q) (hthen : R a b) (helse : R c d) :
  R (if P then a else c) (if Q then b else d)
  := by
  by_cases h : P
  · rw [if_pos h, if_pos (hcondition.mp h)]
    apply hthen
  · rw [if_neg h, if_neg (mt hcondition.mpr h)]
    apply helse

namespace Scalar.Alike

variable {F : Type} [Scalar F] [SignlessZero F] {x x' y y' : F}

omit [SignlessZero F] in
theorem refl (x : F) :
  Alike x x
  := .inl rfl

theorem neg (h : Alike x x') :
  Alike (-x) (-x')
  := by
  rcases h with rfl | ⟨hx, hx'⟩
  · apply refl
  · right
    rw [SymmetricZero.neg_beq_zero, SymmetricZero.neg_beq_zero]
    exact ⟨hx, hx'⟩

theorem magnitude (h : Alike x x') :
  Alike (magnitude x) (magnitude x')
  := by
  unfold Scalar.magnitude
  apply rel_ite (SignlessZero.lt_iff h (refl 0)) h.neg h

theorem larger (hx : Alike x x') (hy : Alike y y') :
  Alike (larger x y) (larger x' y')
  := by
  unfold Scalar.larger
  rw [SignlessZero.isNaN hx, SignlessZero.isNaN hy]
  apply rel_ite Iff.rfl hy
  apply rel_ite Iff.rfl hx
  apply rel_ite (SignlessZero.lt_iff hx hy) hy hx

/-- What a single sum starts from is a zero, as that of two sums at once. -/
theorem emptySum :
  Alike (emptySum : F) 0
  := by
  right
  unfold Scalar.emptySum
  rw [SymmetricZero.neg_beq_zero]
  exact ⟨ReflexiveZero.zero_beq_zero, ReflexiveZero.zero_beq_zero⟩

end Scalar.Alike

/-! ### Vectors -/

namespace DenseVector

variable {F : Type} [Scalar F]

/-- The vectors have the same entries, except that zeros may differ in sign. -/
def Alike (vector other : DenseVector F) : Prop :=
  List.Forall₂ Scalar.Alike vector other

theorem Alike.refl (vector : DenseVector F) :
  vector.Alike vector
  := List.forall₂_same.mpr fun x _ => Scalar.Alike.refl x

variable [SignlessZero F] {vector other : DenseVector F}

theorem Alike.maxMagnitude (h : vector.Alike other) :
  Scalar.Alike vector.maxMagnitude other.maxMagnitude
  := by
  unfold DenseVector.maxMagnitude
  apply List.rel_foldl _ (Scalar.Alike.refl 0) h
  intro largest largest' hlargest x x' hx
  apply hlargest.larger hx.magnitude

theorem Alike.roundAbsolute (h : vector.Alike other) {tolerance tolerance' : F}
    (htolerance : Scalar.Alike tolerance tolerance') :
  (vector.roundAbsolute tolerance).Alike (other.roundAbsolute tolerance')
  := by
  unfold DenseVector.roundAbsolute
  apply List.rel_map _ h
  intro x x' hx
  apply rel_ite (SignlessZero.lt_iff hx.magnitude htolerance) (Scalar.Alike.refl 0) hx

/-- Rounding drops the same entries of vectors that are alike. -/
theorem Alike.roundRelative (h : vector.Alike other) (tolerance : F) :
  (vector.roundRelative tolerance).Alike (other.roundRelative tolerance)
  := by
  have hthreshold := SignlessZero.mul (Scalar.Alike.refl tolerance) h.maxMagnitude
  unfold DenseVector.roundRelative
  dsimp only
  apply rel_ite (SignlessZero.lt_iff (Scalar.Alike.refl 0) hthreshold) _ h
  apply h.roundAbsolute hthreshold

end DenseVector

/-! ### Two rows at once -/

section Rows

variable {F : Type} [Scalar F] [SignlessZero F]

theorem keptBySums_alike :
  KeptBySums (Scalar.Alike : F → F → Prop)
  where
  start := Scalar.Alike.emptySum
  add value hab hxy := SignlessZero.add hab (SignlessZero.mul hxy (Scalar.Alike.refl value))

/-- A file takes two rows at once to what it takes each of them to, up to the signs of zeros, and
fails for the two when it does for one of them. -/
theorem EtaFile.rel_applyLeftDouble? (file : EtaFile F) (first second : DenseVector F) :
  Option.Rel (OnBoth DenseVector.Alike)
    (Option.map₂ Prod.mk (file.applyLeft? first) (file.applyLeft? second))
    (file.applyLeftDouble? first second)
  := keptBySums_alike.applyLeftDouble? (DenseVector.Alike.refl first)
    (DenseVector.Alike.refl second) file

namespace ProductForm

variable {form : ProductForm F} {first second : DenseVector F}

/-- A row that is solved for by itself is rounded as one of two that are solved for at once. -/
theorem Shaped.exists_alike (h : form.Shaped) (context : Context F)
    (hfirst : first.length = form.nrRows + 1) (hsecond : second.length = form.nrRows + 1) :
  ∃ a b c d, form.btran? context first = some a ∧ form.btran? context second = some b
    ∧ form.btranDouble? context first second = some (c, d) ∧ a.Alike c ∧ b.Alike d
  := by
  obtain ⟨a, ha, -⟩ := h.fits.exists_applyLeft? hfirst
  obtain ⟨b, hb, -⟩ := h.fits.exists_applyLeft? hsecond
  have hrel := form.file.rel_applyLeftDouble? first second
  rw [ha, hb] at hrel
  unfold btran? btranDouble?
  rw [if_pos hfirst, if_pos hsecond, if_pos ⟨hfirst, hsecond⟩, ha, hb]
  generalize form.file.applyLeftDouble? first second = double at hrel
  obtain ⟨hboth⟩ := hrel
  exact ⟨_, _, _, _, rfl, rfl, rfl, hboth.1.roundRelative _, hboth.2.roundRelative _⟩

/-- A form that comes from factorizations and updates solves for any two rows of its size at once,
with whatever settings, and what comes out of each row is what the row comes to by itself, except
that zeros may differ in sign.  So do files with any columns, for rows of any length. -/
theorem Reached.btranDouble?_alike (hform : form.Reached) (context : Context F)
    (hfirst : first.length = form.nrRows + 1) (hsecond : second.length = form.nrRows + 1) :
  (∃ a b c d, form.btran? context first = some a ∧ form.btran? context second = some b
      ∧ form.btranDouble? context first second = some (c, d) ∧ a.Alike c ∧ b.Alike d)
    ∧ ∀ (file : EtaFile F) (x y : DenseVector F), Option.Rel (OnBoth DenseVector.Alike)
      (Option.map₂ Prod.mk (file.applyLeft? x) (file.applyLeft? y)) (file.applyLeftDouble? x y)
  := ⟨hform.shaped.exists_alike context hfirst hsecond, EtaFile.rel_applyLeftDouble?⟩

/-- A row of zeros, solved for by itself and next to another one, comes out with different signs,
and the row next to it as by itself. -/
theorem btranDouble?_alike_zeros :
  ∃ outcome, (identity 3).factorize? Context.doubles Model.dependent [4, 5, 6] = some outcome
    ∧ outcome.state.Reached ∧ outcome.state.nrRows = 3
    ∧ ∃ a b c d, outcome.state.btran? Context.doubles [-0, -0, -0, 0] = some a
      ∧ outcome.state.btran? Context.doubles [1, 2, 3, 4] = some b
      ∧ outcome.state.btranDouble? Context.doubles [-0, -0, -0, 0] [1, 2, 3, 4] = some (c, d)
      ∧ a.Alike c ∧ b.Alike d ∧ a ≠ c ∧ b = d
  := by
  have hcomputed : (((identity 3).factorize? Context.doubles Model.dependent [4, 5, 6]).map
      fun outcome => (outcome.state.nrRows, do
        let a ← outcome.state.btran? Context.doubles [-0, -0, -0, 0]
        let b ← outcome.state.btran? Context.doubles [1, 2, 3, 4]
        let pair ← outcome.state.btranDouble? Context.doubles [-0, -0, -0, 0] [1, 2, 3, 4]
        some (decide (a = pair.1), decide (b = pair.2)))) = some (3, some (false, true)) := by
    decide +kernel
  obtain ⟨outcome, houtcome, hcomputed⟩ := Option.map_eq_some_iff.mp hcomputed
  obtain ⟨hrows, hcompared⟩ := Prod.mk_inj.mp hcomputed
  have hform : outcome.state.Reached := .factorize (.identity 3) houtcome
  have hfirst : ([-0, -0, -0, 0] : DenseVector Float).length = outcome.state.nrRows + 1 := by
    rw [hrows]
    rfl
  have hsecond : ([1, 2, 3, 4] : DenseVector Float).length = outcome.state.nrRows + 1 := by
    rw [hrows]
    rfl
  obtain ⟨⟨a, b, c, d, ha, hb, hdouble, hac, hbd⟩, -⟩ :=
    hform.btranDouble?_alike Context.doubles hfirst hsecond
  simp only [ha, hb, hdouble, Option.bind_eq_bind, Option.bind_some, Option.some_inj, Prod.mk_inj,
    decide_eq_false_iff_not, decide_eq_true_iff] at hcompared
  exact ⟨outcome, houtcome, hform, hrows, a, b, c, d, ha, hb, hdouble, hac, hbd, hcompared⟩

end ProductForm

end Rows

end RevisedSimplex
