import RevisedSimplex.ProductForm
import RevisedSimplex.Proofs.Entries

/-!
# Relative rounding

Rounding drops the entries of a vector that are small beside its largest one.  In exact numbers
this is one comparison for every entry: `roundRelative` keeps `x` unless `|x|` is below the
threshold, which is the tolerance times the largest magnitude.

A vector is `Separated` when its entries are zero or reach its own threshold.  These are the
vectors that rounding does not change, and rounding leaves one: what is kept has reached the
threshold of the vector before, and the largest magnitude has not grown.  So nothing is left to
round after a solve.
-/

namespace RevisedSimplex

variable {F : Type} [ExactScalar F]

namespace DenseVector

variable {vector : DenseVector F} {tolerance x : F}

/-! ### The largest magnitude -/

theorem foldl_larger_le_iff {bound : F} :
    ∀ {vector : DenseVector F} {start : F},
      vector.foldl (fun largest value => Scalar.larger largest (Scalar.magnitude value)) start ≤ bound
        ↔ start ≤ bound ∧ ∀ x ∈ vector, |x| ≤ bound
  | [], start => by simp
  | x :: vector, start => by
      rw [List.foldl_cons, foldl_larger_le_iff, ExactScalar.larger_eq_max,
        ExactScalar.magnitude_eq_abs, max_le_iff, List.forall_mem_cons, and_assoc]

/-- The largest magnitude is the least bound of the entries that is not negative. -/
theorem maxMagnitude_le_iff {bound : F} :
  vector.maxMagnitude ≤ bound ↔ 0 ≤ bound ∧ ∀ x ∈ vector, |x| ≤ bound
  := foldl_larger_le_iff

theorem maxMagnitude_nonneg (vector : DenseVector F) :
  0 ≤ vector.maxMagnitude
  := (maxMagnitude_le_iff.mp le_rfl).1

theorem abs_le_maxMagnitude (hx : x ∈ vector) :
  |x| ≤ vector.maxMagnitude
  := (maxMagnitude_le_iff.mp le_rfl).2 x hx

theorem foldl_larger_mul (factor : F) :
    ∀ (vector : DenseVector F) (start : F),
      (vector.map (factor * ·)).foldl
          (fun largest value => Scalar.larger largest (Scalar.magnitude value)) (|factor| * start)
        = |factor| * vector.foldl
          (fun largest value => Scalar.larger largest (Scalar.magnitude value)) start
  | [], start => rfl
  | x :: vector, start => by
      rw [List.map_cons, List.foldl_cons, List.foldl_cons, ← foldl_larger_mul factor vector]
      simp only [ExactScalar.larger_eq_max, ExactScalar.magnitude_eq_abs]
      rw [abs_mul, mul_max_of_nonneg _ _ (abs_nonneg factor)]

/-- The largest magnitude of a multiple. -/
theorem maxMagnitude_mul (factor : F) (vector : DenseVector F) :
  maxMagnitude (vector.map (factor * ·)) = |factor| * vector.maxMagnitude
  := by
  have h := foldl_larger_mul factor vector 0
  rw [mul_zero] at h
  apply h

/-- A number is the largest absolute value of the entries, zero if there are none. -/
structure IsLargest (vector : DenseVector F) (largest : F) : Prop where
  le : ∀ x ∈ vector, |x| ≤ largest
  attained : (∃ x ∈ vector, |x| = largest) ∨ vector = [] ∧ largest = 0

theorem isLargest_maxMagnitude (vector : DenseVector F) :
  vector.IsLargest vector.maxMagnitude
  := by
  refine ⟨fun x => abs_le_maxMagnitude, ?_⟩
  cases vector with
  | nil => exact Or.inr ⟨rfl, rfl⟩
  | cons x vector =>
      -- Some entry bounds all others, and no bound is below the largest magnitude.
      obtain ⟨y, hy, hbound⟩ := (x :: vector).toFinset.exists_max_image (fun y => |y|)
        ⟨x, List.mem_toFinset.mpr List.mem_cons_self⟩
      have hmem := List.mem_toFinset.mp hy
      refine Or.inl ⟨y, hmem, le_antisymm (abs_le_maxMagnitude hmem) ?_⟩
      apply maxMagnitude_le_iff.mpr
      exact ⟨abs_nonneg y, fun z hz => hbound z (List.mem_toFinset.mpr hz)⟩

/-! ### Rounding -/

/-- Below a threshold that is not positive there is nothing to drop, so that it need not be
tested. -/
theorem roundRelative_eq_map (tolerance : F) (vector : DenseVector F) :
  vector.roundRelative tolerance
    = vector.map fun x => if |x| < tolerance * vector.maxMagnitude then 0 else x
  := by
  unfold roundRelative roundAbsolute
  simp only [ExactScalar.magnitude_eq_abs]
  split
  · rfl
  · rename_i hthreshold
    symm
    apply List.map_id''
    intro x
    apply if_neg
    apply not_lt.mpr ((not_lt.mp hthreshold).trans (abs_nonneg x))

theorem getElem?_roundRelative (tolerance : F) {i : ℕ} (hx : vector[i]? = some x) :
  (vector.roundRelative tolerance)[i]?
    = some (if |x| < tolerance * vector.maxMagnitude then 0 else x)
  := by
  rw [roundRelative_eq_map, List.getElem?_map, hx]
  rfl

/-- Every entry is kept or dropped. -/
theorem getElem?_roundRelative_eq_or (tolerance : F) {i : ℕ} (hx : vector[i]? = some x) :
  (vector.roundRelative tolerance)[i]? = some x ∨ (vector.roundRelative tolerance)[i]? = some 0
  := by
  rw [getElem?_roundRelative tolerance hx]
  rcases lt_or_ge |x| (tolerance * vector.maxMagnitude) with hsmall | hlarge
  · rw [if_pos hsmall]
    apply Or.inr rfl
  · rw [if_neg (not_lt.mpr hlarge)]
    apply Or.inl rfl

/-- With a positive threshold, the zeros are the entries below it. -/
theorem getElem?_roundRelative_eq_zero_iff (hthreshold : 0 < tolerance * vector.maxMagnitude)
    {i : ℕ} (hx : vector[i]? = some x) :
  (vector.roundRelative tolerance)[i]? = some 0 ↔ |x| < tolerance * vector.maxMagnitude
  := by
  rw [getElem?_roundRelative tolerance hx, Option.some_inj]
  constructor
  · intro hzero
    by_contra hlarge
    rw [if_neg hlarge] at hzero
    rw [hzero, abs_zero] at hlarge
    apply hlarge hthreshold
  · intro hsmall
    apply if_pos hsmall

theorem mem_roundRelative {y : F} (hy : y ∈ vector.roundRelative tolerance) :
  y = 0 ∨ y ∈ vector ∧ tolerance * vector.maxMagnitude ≤ |y|
  := by
  rw [roundRelative_eq_map] at hy
  obtain ⟨x, hx, rfl⟩ := List.mem_map.mp hy
  split
  · apply Or.inl rfl
  · rename_i hkept
    exact Or.inr ⟨hx, not_lt.mp hkept⟩

/-- Rounding multiples is the same as taking multiples of what is rounded. -/
theorem roundRelative_mul (tolerance factor : F) (vector : DenseVector F) :
  roundRelative tolerance (vector.map (factor * ·))
    = (vector.roundRelative tolerance).map (factor * ·)
  := by
  rw [roundRelative_eq_map, roundRelative_eq_map, maxMagnitude_mul, List.map_map, List.map_map]
  apply List.map_congr_left
  intro x _
  dsimp only [Function.comp]
  rcases eq_or_ne factor 0 with rfl | hfactor
  · simp
  · have hpos : 0 < |factor| := abs_pos.mpr hfactor
    simp only [abs_mul, mul_left_comm tolerance, mul_lt_mul_iff_right₀ hpos, mul_ite, mul_zero]

/-- Rounding makes no entry larger. -/
theorem maxMagnitude_roundRelative_le (tolerance : F) (vector : DenseVector F) :
  (vector.roundRelative tolerance).maxMagnitude ≤ vector.maxMagnitude
  := by
  apply maxMagnitude_le_iff.mpr
  refine ⟨vector.maxMagnitude_nonneg, ?_⟩
  intro y hy
  rcases mem_roundRelative hy with rfl | ⟨hmem, -⟩
  · rw [abs_zero]
    apply maxMagnitude_nonneg
  · apply abs_le_maxMagnitude hmem

/-- A largest entry is kept, unless the threshold is above all entries. -/
theorem maxMagnitude_roundRelative (htolerance : tolerance ≤ 1) (vector : DenseVector F) :
  (vector.roundRelative tolerance).maxMagnitude = vector.maxMagnitude
  := by
  apply le_antisymm (maxMagnitude_roundRelative_le tolerance vector)
  rcases vector.isLargest_maxMagnitude.attained with ⟨x, hx, hlargest⟩ | ⟨-, hzero⟩
  · rw [← hlargest]
    apply abs_le_maxMagnitude
    rw [roundRelative_eq_map]
    apply List.mem_map.mpr
    refine ⟨x, hx, if_neg ?_⟩
    rw [hlargest, not_lt]
    apply mul_le_of_le_one_left vector.maxMagnitude_nonneg htolerance
  · rw [hzero]
    apply maxMagnitude_nonneg

/-- Nothing reaches a threshold above all entries. -/
theorem eq_zero_of_mem_roundRelative (htolerance : 1 < tolerance)
    (hx : x ∈ vector.roundRelative tolerance) :
  x = 0
  := by
  by_contra hne
  obtain ⟨hmem, hkept⟩ := (mem_roundRelative hx).resolve_left hne
  have hle := abs_le_maxMagnitude hmem
  have hpos := (abs_pos.mpr hne).trans_le hle
  apply (hkept.trans hle).not_gt (lt_mul_of_one_lt_left hpos htolerance)

/-! ### Nothing left to round -/

/-- The entries of a vector are zero, or reach its threshold. -/
def Separated (tolerance : F) (vector : DenseVector F) : Prop :=
  ∀ x ∈ vector, x = 0 ∨ tolerance * vector.maxMagnitude ≤ |x|

/-- The vectors that rounding does not change. -/
theorem roundRelative_eq_self_iff :
  vector.roundRelative tolerance = vector ↔ vector.Separated tolerance
  := by
  constructor
  · intro h x hx
    rw [← h] at hx
    exact (mem_roundRelative hx).imp_right And.right
  · intro h
    rw [roundRelative_eq_map]
    conv_rhs => rw [← List.map_id vector]
    apply List.map_congr_left
    intro x hx
    rcases h x hx with rfl | hkept
    · apply ite_self
    · apply if_neg (not_lt.mpr hkept)

/-- Rounding leaves a vector that it does not change any more. -/
theorem separated_roundRelative (tolerance : F) (vector : DenseVector F) :
  (vector.roundRelative tolerance).Separated tolerance
  := by
  intro x hx
  apply (mem_roundRelative hx).imp_right
  rintro ⟨-, hkept⟩
  rcases le_or_gt 0 tolerance with hnonneg | hneg
  · apply le_trans _ hkept
    apply mul_le_mul_of_nonneg_left (maxMagnitude_roundRelative_le tolerance vector) hnonneg
  · apply le_trans _ (abs_nonneg x)
    apply mul_nonpos_of_nonpos_of_nonneg hneg.le (maxMagnitude_nonneg _)

theorem roundRelative_roundRelative (tolerance : F) (vector : DenseVector F) :
  (vector.roundRelative tolerance).roundRelative tolerance = vector.roundRelative tolerance
  := roundRelative_eq_self_iff.mpr (separated_roundRelative tolerance vector)

end DenseVector

/-! ### Solves -/

/-- Exact numbers, with a tenth of the largest entry as the threshold of solved vectors. -/
def Context.coarse : Context ℚ where
  tolerances :=
    { primal := 0, dual := 0, pivot := 1 / 10 ^ 9, ratioPivot := 0
      factorizationPivot := 1 / 10 ^ 10, drop := 1 / 10, harris := 1 }
  policy := {}
  rowSelection := .largestMagnitude

namespace ProductForm

variable {context : Context F}

theorem map_rounded (solved : Option (DenseVector F)) :
  (solved.map (rounded context)).map (DenseVector.roundRelative context.tolerances.drop)
    = solved.map (rounded context)
  := by
  rw [Option.map_map]
  congr 1
  funext vector
  apply DenseVector.roundRelative_roundRelative

theorem map_rounded_pair (solved : Option (DenseVector F × DenseVector F)) :
  (solved.map (Prod.map (rounded context) (rounded context))).map
      (Prod.map (DenseVector.roundRelative context.tolerances.drop)
        (DenseVector.roundRelative context.tolerances.drop))
    = solved.map (Prod.map (rounded context) (rounded context))
  := by
  rw [Option.map_map]
  congr 1
  funext pair
  apply Prod.ext
  · apply DenseVector.roundRelative_roundRelative
  · apply DenseVector.roundRelative_roundRelative

/-- Whatever a solve with a column gives, rounding it again changes nothing. -/
theorem ftran?_rounded (form : ProductForm F) (vector : DenseVector F) :
  (form.ftran? context vector).map (DenseVector.roundRelative context.tolerances.drop)
    = form.ftran? context vector
  := by
  unfold ftran?
  split
  · apply map_rounded
  · rfl

/-- Whatever a solve with a row gives, rounding it again changes nothing. -/
theorem btran?_rounded (form : ProductForm F) (vector : DenseVector F) :
  (form.btran? context vector).map (DenseVector.roundRelative context.tolerances.drop)
    = form.btran? context vector
  := by
  unfold btran?
  split
  · apply map_rounded
  · rfl

/-- Two rows that are solved for at once are each rounded for good. -/
theorem btranDouble?_rounded (form : ProductForm F) (first second : DenseVector F) :
  (form.btranDouble? context first second).map
      (Prod.map (DenseVector.roundRelative context.tolerances.drop)
        (DenseVector.roundRelative context.tolerances.drop))
    = form.btranDouble? context first second
  := by
  unfold btranDouble?
  split
  · apply map_rounded_pair
  · rfl

/-- Rounding relative to the largest entry, in exact numbers and with any tolerance.

It keeps the length, and every entry as it is or as a zero.  With a positive threshold the zeros are
the entries below it, and otherwise nothing changes.  Up to tolerance one the largest magnitude
stays, and beyond it no entry does.  Multiples are rounded alike.  A second time changes nothing,
and so a solve leaves nothing to round. -/
theorem solves_stay_rounded (tolerance : F) (vector : DenseVector F) :
  vector.IsLargest vector.maxMagnitude
    ∧ (vector.roundRelative tolerance).length = vector.length
    ∧ (∀ (i : ℕ) (x : F), vector[i]? = some x →
      ((vector.roundRelative tolerance)[i]? = some x
          ∨ (vector.roundRelative tolerance)[i]? = some 0)
        ∧ (0 < tolerance * vector.maxMagnitude →
          ((vector.roundRelative tolerance)[i]? = some 0
            ↔ |x| < tolerance * vector.maxMagnitude)))
    ∧ (¬ 0 < tolerance * vector.maxMagnitude → vector.roundRelative tolerance = vector)
    ∧ (tolerance ≤ 1 → (vector.roundRelative tolerance).maxMagnitude = vector.maxMagnitude)
    ∧ (1 < tolerance → ∀ x ∈ vector.roundRelative tolerance, x = 0)
    ∧ (∀ factor : F, DenseVector.roundRelative tolerance (vector.map (factor * ·))
      = (vector.roundRelative tolerance).map (factor * ·))
    ∧ (vector.roundRelative tolerance).roundRelative tolerance = vector.roundRelative tolerance
    ∧ ∀ (context : Context F) (form : ProductForm F) (other : DenseVector F),
      (form.ftran? context vector).map (DenseVector.roundRelative context.tolerances.drop)
          = form.ftran? context vector
        ∧ (form.btran? context vector).map (DenseVector.roundRelative context.tolerances.drop)
          = form.btran? context vector
        ∧ (form.btranDouble? context vector other).map
            (Prod.map (DenseVector.roundRelative context.tolerances.drop)
              (DenseVector.roundRelative context.tolerances.drop))
          = form.btranDouble? context vector other
  := by
  refine ⟨vector.isLargest_maxMagnitude, DenseVector.length_roundRelative tolerance vector, ?_, ?_,
    ?_, ?_, ?_, DenseVector.roundRelative_roundRelative tolerance vector, ?_⟩
  · intro i x hx
    refine ⟨DenseVector.getElem?_roundRelative_eq_or tolerance hx, ?_⟩
    intro hthreshold
    apply DenseVector.getElem?_roundRelative_eq_zero_iff hthreshold hx
  · intro hthreshold
    apply if_neg hthreshold
  · intro htolerance
    apply DenseVector.maxMagnitude_roundRelative htolerance
  · intro htolerance x
    apply DenseVector.eq_zero_of_mem_roundRelative htolerance
  · intro factor
    apply DenseVector.roundRelative_mul
  · intro context form other
    exact ⟨form.ftran?_rounded vector, form.btran?_rounded vector,
      form.btranDouble?_rounded vector other⟩

/-- A vector whose threshold is two fifths, rounded after a solve and rounded again. -/
theorem solves_stay_rounded_coarse :
  0 < Context.coarse.tolerances.drop * DenseVector.maxMagnitude [4, -1 / 100, 0, 1]
    ∧ Context.coarse.tolerances.drop ≤ 1
    ∧ (identity 3).ftran? Context.coarse [4, -1 / 100, 0, 1] = some [4, 0, 0, 1]
    ∧ DenseVector.roundRelative Context.coarse.tolerances.drop [4, 0, 0, 1] = [4, 0, 0, 1]
    ∧ DenseVector.maxMagnitude [4, 0, 0, 1] = DenseVector.maxMagnitude [4, -1 / 100, 0, (1 : ℚ)]
    ∧ DenseVector.roundRelative Context.coarse.tolerances.drop [-8, 1 / 50, 0, -2]
      = [-8, 0, 0, -2]
  := by
  have hthreshold : 0 < Context.coarse.tolerances.drop
      * DenseVector.maxMagnitude [4, -1 / 100, 0, 1] := by decide +kernel
  have htolerance : Context.coarse.tolerances.drop ≤ 1 := by decide +kernel
  have hrounded : DenseVector.roundRelative Context.coarse.tolerances.drop [4, -1 / 100, 0, 1]
      = [4, 0, 0, 1] := by decide +kernel
  have hsolved : (identity 3).ftran? Context.coarse [4, -1 / 100, 0, 1] = some [4, 0, 0, 1] := by
    decide +kernel
  obtain ⟨-, -, -, -, hlargest, -, hmultiple, -, hsolves⟩ :=
    solves_stay_rounded Context.coarse.tolerances.drop [4, -1 / 100, 0, 1]
  have hlargest := hlargest htolerance
  have hmultiple := hmultiple (-2)
  obtain ⟨hagain, -⟩ := hsolves Context.coarse (identity 3) []
  rw [hrounded] at hlargest hmultiple
  rw [hsolved, Option.map_some, Option.some_inj] at hagain
  refine ⟨hthreshold, htolerance, hsolved, hagain, hlargest, ?_⟩
  have hdouble : [4, -1 / 100, 0, (1 : ℚ)].map (-2 * ·) = [-8, 1 / 50, 0, -2] := by decide +kernel
  have hrest : [4, 0, 0, (1 : ℚ)].map (-2 * ·) = [-8, 0, 0, -2] := by decide +kernel
  rw [hdouble, hrest] at hmultiple
  apply hmultiple

end ProductForm

end RevisedSimplex
