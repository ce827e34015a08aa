import RevisedSimplex.Proofs.RatioTests

/-!
# Rows of an iterate in exact numbers

What the rows of an iterate say about its feasibility, and which of its nonbasic variables are
movable.  With primal tolerance zero a feasible iterate has all values within the bounds, and every
nonbasic variable is movable.
-/

namespace RevisedSimplex

namespace Iterate

variable {F : Type} [ExactScalar F] {model : Model F} {iterate : Iterate F}
  {tolerances : Tolerances F} {position : ℕ}

/-! ### Rows -/

/-- The values of the rows lie outside of their bounds by no more than a tolerance. -/
def RowsWithin (tolerance : F) (model : Model F) (iterate : Iterate F) : Prop :=
  ∀ position row, position ≠ 0 → position ≤ model.nrRows →
    iterate.row? model position = some row → row.bounds.Within tolerance row.value

/-- An iterate is feasible if all its rows are within their bounds. -/
theorem isFeasible?_eq_true_iff (hprimal : 0 ≤ tolerances.primal) (hsized : iterate.Sized model) :
  iterate.isFeasible? tolerances model = some true
    ↔ iterate.RowsWithin tolerances.primal model
  := by
  obtain ⟨rows, hrows⟩ := hsized.exists_rows?
  unfold isFeasible?
  rw [hrows, Option.bind_eq_bind, Option.bind_some, Option.some_inj, List.all_eq_true]
  constructor
  · intro h position row hne hle hrow
    have hmem : position ∈ List.range' 1 (iterate.values.length - 1) := by
      rw [hsized.values, List.mem_range'_1]
      omega
    obtain ⟨other, hother, hread⟩ := mem_mapM_of_mem hrows hmem
    rw [hrow, Option.some_inj] at hread
    subst hread
    apply (Bounds.violation_eq_zero_iff hprimal).mp
    apply beq_iff_eq.mp (h row hother)
  · intro h row hrow
    obtain ⟨hne, hle, hread⟩ := mem_rows? hsized hrows hrow
    apply beq_iff_eq.mpr
    apply (Bounds.violation_eq_zero_iff hprimal).mpr (h _ row hne hle hread)

/-- With tolerance zero all values lie within the bounds. -/
theorem isFeasible?_eq_true_iff_contains (hprimal : tolerances.primal = 0)
    (hsized : iterate.Sized model) :
  iterate.isFeasible? tolerances model = some true
    ↔ ∀ position row, position ≠ 0 → position ≤ model.nrRows →
      iterate.row? model position = some row → row.bounds.Contains row.value
  := by
  rw [isFeasible?_eq_true_iff hprimal.ge hsized, hprimal]
  unfold RowsWithin
  simp only [Bounds.within_zero_iff]

/-- A listed violation is that of a row that violates a bound. -/
theorem mem_violations? (hsized : iterate.Sized model) {violations : List (ℕ × F)}
    (h : iterate.violations? tolerances model = some violations) {amount : F}
    (hmem : (position, amount) ∈ violations) :
  position ≠ 0 ∧ position ≤ model.nrRows
    ∧ ∃ row violated, iterate.row? model position = some row
      ∧ row.bounds.violated? tolerances.primal row.value = some violated
  := by
  obtain ⟨hposition, hle, row, hrow, hpos⟩ := row_of_mem_violations? hsized h hmem
  refine ⟨hposition, hle, row, ?_⟩
  cases hviolated : row.bounds.violated? tolerances.primal row.value with
  | some violated => exact ⟨violated, hrow, rfl⟩
  | none =>
      unfold BasicRow.violation Bounds.violation at hpos
      rw [hviolated] at hpos
      cases lt_irrefl 0 hpos

/-! ### Movable variables -/

/-- A nonbasic variable that is not fixed. -/
structure Movable (tolerances : Tolerances F) (model : Model F) (iterate : Iterate F) (v : ℕ) :
    Prop where
  nonbasic : iterate.basis.isNonbasic v = true
  range : ∃ bounds, model.bounds? v = some bounds ∧ bounds.isFixed tolerances.primal = false

/-- With tolerance zero every nonbasic variable is movable. -/
theorem movable_of_isNonbasic (hprimal : tolerances.primal = 0) (hsized : iterate.Sized model)
    {v : ℕ} (hv : iterate.basis.isNonbasic v = true) :
  iterate.Movable tolerances model v
  := by
  obtain ⟨bounds, _, hbounds, -⟩ := hsized.exists_restingValue? hv
  refine ⟨hv, bounds, hbounds, ?_⟩
  rw [hprimal, Bounds.isFixed_zero]

variable {movable : List (Nonbasic F)}

/-- The listed variables are movable. -/
theorem movable_of_mem (h : iterate.movable? tolerances model = some movable) {x : Nonbasic F}
    (hx : x ∈ movable) :
  iterate.Movable tolerances model x.index
  := by
  refine ⟨(mem_movable? h hx).1, ?_⟩
  unfold movable? at h
  obtain ⟨all, hall, h⟩ := Option.bind_eq_some_iff.mp h
  cases h
  obtain ⟨result, hresult, rfl⟩ := List.mem_filterMap.mp hx
  obtain ⟨v, -, hread⟩ := exists_of_mem_mapM hall hresult
  obtain ⟨hindex, -⟩ := movableVariable?_some hread
  unfold movableVariable? at hread
  obtain ⟨bounds, hbounds, hread⟩ := Option.bind_eq_some_iff.mp hread
  refine ⟨bounds, by rw [hindex, hbounds], ?_⟩
  split at hread
  · cases hread
  · rename_i hfixed
    apply eq_false_of_ne_true hfixed

/-- Every movable variable is listed. -/
theorem Movable.exists_mem {v : ℕ} (hv : iterate.Movable tolerances model v)
    (h : iterate.movable? tolerances model = some movable) :
  ∃ x ∈ movable, x.index = v
  := by
  unfold movable? at h
  obtain ⟨all, hall, h⟩ := Option.bind_eq_some_iff.mp h
  cases h
  obtain ⟨result, hresult, hread⟩ := mem_mapM_of_mem hall (Basis.mem_nonbasic.mpr hv.nonbasic)
  obtain ⟨x, rfl⟩ : ∃ x, result = some x := by
    obtain ⟨bounds, hbounds, hfixed⟩ := hv.range
    unfold movableVariable? at hread
    rw [hbounds, Option.bind_eq_bind, Option.bind_some, hfixed] at hread
    simp only [Bool.false_eq_true, if_false] at hread
    obtain ⟨side, -, hread⟩ := Option.bind_eq_some_iff.mp hread
    obtain ⟨column, -, hread⟩ := Option.bind_eq_some_iff.mp hread
    cases hread
    exact ⟨_, rfl⟩
  refine ⟨x, ?_, (movableVariable?_some hread).1⟩
  apply List.mem_filterMap.mpr
  exact ⟨some x, hresult, rfl⟩

end Iterate

end RevisedSimplex
