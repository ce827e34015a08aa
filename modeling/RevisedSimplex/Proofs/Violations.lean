import RevisedSimplex.Proofs.IterateSizes
import RevisedSimplex.Proofs.RoundedScalar

/-!
# Violations in rounded numbers

With a tolerance that is not negative a value that violates a bound lies beyond it, and so by a
positive amount, rounding or not.  Hence an iterate that is not feasible has a row whose violation
is positive.  And a step that is too long for the range of its variable shows that the range is
finite.
-/

namespace RevisedSimplex

variable {F : Type} [Scalar F]

/-! ### Bounds -/

namespace Bounds

variable [RoundedScalar F] {bounds : Bounds F} {tolerance value : F}

/-- The violation of a value outside the bounds is positive. -/
theorem violation_pos (ht : 0 ≤ tolerance) {violated : Side × F}
    (h : bounds.violated? tolerance value = some violated) :
  0 < bounds.violation tolerance value
  := by
  unfold violation
  rw [h]
  unfold violated? at h
  split at h
  · rename_i l hlower
    cases h
    have hlt := (Option.filter_eq_some_iff.mp hlower).2
    apply RoundedScalar.sub_pos
    apply RoundedScalar.lt_of_lt_sub ht
    simpa using hlt
  · obtain ⟨u, hupper, rfl⟩ := Option.map_eq_some_iff.mp h
    have hlt := (Option.filter_eq_some_iff.mp hupper).2
    apply RoundedScalar.sub_pos
    apply RoundedScalar.lt_of_add_lt ht
    simpa using hlt

/-- A violation that is not positive is none. -/
theorem violated?_eq_none_of_not_pos (ht : 0 ≤ tolerance)
    (h : ¬ 0 < bounds.violation tolerance value) :
  bounds.violated? tolerance value = none
  := by
  cases hviolated : bounds.violated? tolerance value with
  | none => rfl
  | some violated => cases h (violation_pos ht hviolated)

/-- A range that a step exceeds is finite. -/
theorem exists_finiteRange? {x y : F} (h : (bounds.range?.any fun range => range - x < y) = true) :
  ∃ range, bounds.finiteRange? = some range
  := by
  unfold finiteRange? range? at *
  cases hl : bounds.lower with
  | none => simp [hl] at h
  | some l =>
      cases hu : bounds.upper with
      | none => simp [hl, hu] at h
      | some u =>
          rw [hl, hu] at h
          have hlt : u - l - x < y := by simpa using h
          cases hfinite : Scalar.isFinite (u - l) with
          | true =>
              refine ⟨u - l, ?_⟩
              simp [hfinite]
          | false =>
              cases RoundedScalar.not_sub_lt (bounds.ordered l u hl hu) hfinite x y hlt

end Bounds

/-! ### Iterates -/

namespace Iterate

variable {model : Model F} {iterate : Iterate F} {tolerances : Tolerances F} {position : ℕ}

/-- A listed violation is that of a row. -/
theorem row_of_mem_violations? (hsized : iterate.Sized model) {violations : List (ℕ × F)}
    (h : iterate.violations? tolerances model = some violations) {amount : F}
    (hmem : (position, amount) ∈ violations) :
  position ≠ 0 ∧ position ≤ model.nrRows
    ∧ ∃ row, iterate.row? model position = some row ∧ 0 < row.violation tolerances
  := by
  unfold violations? at h
  obtain ⟨rows, hrows, h⟩ := Option.bind_eq_some_iff.mp h
  cases h
  obtain ⟨hmem, hpos⟩ := List.mem_filter.mp hmem
  obtain ⟨row, hrow, heq⟩ := List.mem_map.mp hmem
  cases heq
  obtain ⟨hposition, hle, hread⟩ := mem_rows? hsized hrows hrow
  exact ⟨hposition, hle, row, hread, of_decide_eq_true hpos⟩

/-- The violations can be listed. -/
theorem Sized.exists_violations? (h : iterate.Sized model) (tolerances : Tolerances F) :
  ∃ violations, iterate.violations? tolerances model = some violations
  := by
  obtain ⟨rows, hrows⟩ := h.exists_rows?
  unfold violations?
  rw [hrows]
  exact ⟨_, rfl⟩

/-- An iterate that is not feasible has violations. -/
theorem violations?_ne_nil [RoundedScalar F] (ht : 0 ≤ tolerances.primal)
    (h : iterate.isFeasible? tolerances model = some false) :
  iterate.violations? tolerances model ≠ some []
  := by
  intro hviolations
  unfold isFeasible? at h
  unfold violations? at hviolations
  obtain ⟨rows, hrows, h⟩ := Option.bind_eq_some_iff.mp h
  rw [hrows, Option.bind_eq_bind, Option.bind_some, Option.some_inj,
    List.filter_eq_nil_iff] at hviolations
  rw [Option.some_inj, List.all_eq_false] at h
  obtain ⟨row, hrow, hviolated⟩ := h
  have hnot := hviolations _ (List.mem_map_of_mem hrow)
  rw [decide_eq_true_eq] at hnot
  apply hviolated
  unfold BasicRow.violation at hnot ⊢
  have hnone := Bounds.violated?_eq_none_of_not_pos ht hnot
  unfold Bounds.violation
  rw [hnone]
  apply ReflexiveZero.zero_beq_zero

end Iterate

end RevisedSimplex
