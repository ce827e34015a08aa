import RevisedSimplex.Proofs.SolverChoices

/-!
# Edges of a primal step

A candidate moves along its edge in the direction that decreases the objective, at the rate of its
reduced cost.  All values stay within their bounds up to the primal tolerance, as long as the step
is not longer than that of any row to its relaxed bound, and exceeds the range of the candidate by
no more than the tolerance.  Only the entries of the pivot column that are small but not zero can
spoil this, since the ratio test passes over their rows.
-/

namespace RevisedSimplex

variable {F : Type} [ExactScalar F]

/-- The objective decreases in the direction of a candidate. -/
theorem Candidate.direction_mul_neg {dual reducedCost direction : F} {side : Option Side}
    (hdual : 0 ≤ dual) (h : improvingDirection? dual reducedCost side = some direction) :
  direction * reducedCost < 0
  := by
  cases side with
  | some s =>
      cases s with
      | lower =>
          simp only [improvingDirection?] at h
          split at h
          · rename_i hlt
            rw [← Option.some_inj.mp h]
            change 1 * reducedCost < 0
            linarith
          · cases h
      | upper =>
          simp only [improvingDirection?] at h
          split at h
          · rename_i hlt
            rw [← Option.some_inj.mp h]
            change -1 * reducedCost < 0
            linarith
          · cases h
  | none =>
      simp only [improvingDirection?, ExactScalar.magnitude_eq_abs] at h
      split at h
      · rename_i hlt
        rw [← Option.some_inj.mp h, neg_mul, ExactScalar.signOf_mul_self]
        linarith
      · cases h

/-- The objective dummy has no bounds. -/
theorem Model.within_of_bounds?_zero {model : Model F} {bounds : Bounds F}
    (h : model.bounds? 0 = some bounds) (tolerance value : F) :
  bounds.Within tolerance value
  := by
  cases h
  constructor
  · intro l hl
    cases hl
  · intro u hu
    cases hu

namespace Iterate

variable {model : Model F} {iterate : Iterate F} {form : ProductForm F} {entering v : ℕ}
  {theta tolerance : F} {bounds : Bounds F}

/-- The objective changes along the edge at the rate of the reduced cost. -/
theorem Loaded.alongEdge_zero (hloaded : iterate.Loaded model form entering) :
  iterate.alongEdge model entering theta 0
    = iterate.point model 0 - theta * tableau model form 0 entering
  := by
  have hdummy : iterate.basis.variableAt? 0 = some 0 := Basis.variableAt?_zero _
  have hentry : iterate.pivotColumn[0]?.getD 0 = tableau model form 0 entering :=
    congrFun hloaded.column (0 : Fin (model.nrRows + 1))
  rw [alongEdge_of_variableAt? hdummy, hentry]

/-- The row of a basic variable holds its value. -/
theorem Sized.row?_of_variableAt? (h : iterate.Sized model) {i : ℕ}
    (hi : iterate.basis.variableAt? i = some v) (hbounds : model.bounds? v = some bounds) :
  iterate.row? model i = some ⟨i, v, iterate.point model v, bounds⟩
  := by
  have hlt := h.lt_of_variableAt? hi
  have hvalue := DenseVector.getElem?_eq_entries h.values ⟨i, hlt⟩
  have hpoint : iterate.point model v
      = iterate.values.entries (model.nrRows + 1) ⟨i, hlt⟩ := point_of_variableAt? hi
  rw [← hpoint] at hvalue
  unfold row?
  rw [hi, Option.bind_eq_bind, Option.bind_some, hvalue, Option.bind_eq_bind, Option.bind_some,
    hbounds]
  rfl

/-- The values of all variables are within their bounds if those of the rows are. -/
theorem Sized.within_point (h : iterate.Sized model) (ht : 0 ≤ tolerance)
    (hrows : iterate.RowsWithin tolerance model) (hbounds : model.bounds? v = some bounds) :
  bounds.Within tolerance (iterate.point model v)
  := by
  rcases h.position_or_nonbasic (Model.lt_of_bounds? hbounds) with ⟨i, hi⟩ | hnonbasic
  · by_cases hzero : i.val = 0
    · rw [hzero, Basis.variableAt?_zero, Option.some_inj] at hi
      subst hi
      apply Model.within_of_bounds?_zero hbounds
    · apply hrows i _ hzero (Nat.le_of_lt_succ i.isLt) (h.row?_of_variableAt? hi hbounds)
  · obtain ⟨other, stored, hother, -, -, hpoint⟩ := h.restingValue?_eq hnonbasic
    rw [hbounds, Option.some_inj] at hother
    subst hother
    rw [hpoint]
    apply (bounds.contains_restingValue stored).within ht

end Iterate

namespace Solver

variable {solver : Solver (ProductForm F) F} {candidate : Candidate F}
  {entries : List (PivotEntry F)} {step : F}

/-- The limits of the step of a candidate.  It is not longer than the step of any row to its relaxed
bound, unless the entry of the row is too small for the ratio test, and exceeds the range of the
candidate by no more than the primal tolerance. -/
structure Limits (solver : Solver (ProductForm F) F) (candidate : Candidate F)
    (entries : List (PivotEntry F)) (step : F) : Prop where
  nonneg : 0 ≤ step
  rows : ∀ entry ∈ entries, solver.context.tolerances.ratioPivot ≤ |entry.alpha| →
    ∀ t, entry.reach? solver.context.tolerances solver.context.tolerances.harris
      candidate.direction = some t → step ≤ t
  range : ∀ bounds range, solver.model.bounds? candidate.index = some bounds →
    bounds.range? = some range → step ≤ range + solver.context.tolerances.primal

section RatioTest

variable {tolerances : Tolerances F} {model : Model F} {entering row : ℕ} {theta direction : F}
  {bounds : Bounds F} {range length : F}

/-- A primal step with a blocking row goes to the other bound if that comes before the row by more
than the tolerance. -/
theorem isBoundFlip?_primal (hbounds : model.bounds? entering = some bounds)
    (hfixed : bounds.isFixed tolerances.primal = false) {flips : Bool}
    (h : Iterate.isBoundFlip? tolerances model (some row) entering theta true = some flips) :
  flips = true ↔ ∃ range, bounds.range? = some range ∧ range + tolerances.primal < |theta|
  := by
  unfold Iterate.isBoundFlip? at h
  rw [hbounds, Option.bind_eq_bind, Option.bind_some, Option.some_inj] at h
  rw [← h, hfixed, Bool.not_false, Bool.true_and, Option.any_eq_true]
  constructor
  · rintro ⟨range, hrange, hlt⟩
    rw [decide_eq_true_eq, ExactScalar.magnitude_eq_abs] at hlt
    refine ⟨range, hrange, ?_⟩
    linarith
  · rintro ⟨range, hrange, hlt⟩
    refine ⟨range, hrange, ?_⟩
    rw [decide_eq_true_eq, ExactScalar.magnitude_eq_abs]
    linarith

/-- The step that the ratio test finds is limited by the rows. -/
theorem le_reach?_of_primalRatioTest? (hrelaxation : 0 ≤ tolerances.primal * tolerances.harris)
    (hlength : ((primalRatioTest? tolerances direction entries).map Prod.snd).or
      bounds.finiteRange? = some length) :
  0 ≤ length
    ∧ ∀ entry ∈ entries, tolerances.ratioPivot ≤ |entry.alpha| →
      ∀ t, entry.reach? tolerances tolerances.harris direction = some t → length ≤ t
  := by
  rcases primalRatioTest?_cases hrelaxation direction entries with
    ⟨hblocking, hnone⟩ | ⟨entry, -, step, hblocking, hreach, hle, -⟩
  · rw [hblocking, Option.map_none, Option.none_or, Bounds.finiteRange?_eq] at hlength
    refine ⟨Bounds.range_nonneg hlength, ?_⟩
    intro entry hentry hlarge t ht
    rw [hnone entry hentry hlarge] at ht
    cases ht
  · rw [hblocking, Option.map_some, Option.some_or, Option.some_inj] at hlength
    subst hlength
    refine ⟨?_, hle⟩
    unfold PivotEntry.reach? BasicRow.reach? at hreach
    split at hreach
    · cases hreach
    · apply Bounds.reach?_nonneg hreach

/-- A primal step goes to the other bound only if it is at least as long as the range. -/
theorem range_le_of_isBoundFlip? (hprimal : 0 ≤ tolerances.primal)
    (hbounds : model.bounds? entering = some bounds)
    (hfixed : bounds.isFixed tolerances.primal = false) (hrange : bounds.range? = some range)
    (hunit : |direction| = 1) (hnonneg : 0 ≤ length)
    (hlength : ((primalRatioTest? tolerances direction entries).map Prod.snd).or
      bounds.finiteRange? = some length)
    (hflip : Iterate.isBoundFlip? tolerances model
      ((primalRatioTest? tolerances direction entries).map Prod.fst) entering
      (direction * length) true = some true) :
  range ≤ length
  := by
  cases hblocking : primalRatioTest? tolerances direction entries with
  | none =>
      rw [hblocking, Bounds.finiteRange?_eq, hrange] at hlength
      apply (Option.some_inj.mp hlength).le
  | some blocking =>
      rw [hblocking] at hflip
      obtain ⟨other, hother, hlt⟩ := (isBoundFlip?_primal hbounds hfixed hflip).mp rfl
      rw [hrange, Option.some_inj] at hother
      rw [abs_mul, hunit, one_mul, abs_of_nonneg hnonneg] at hlt
      linarith

/-- A primal step that exchanges exceeds the range by no more than the tolerance. -/
theorem le_range_of_isBoundFlip? (hbounds : model.bounds? entering = some bounds)
    (hfixed : bounds.isFixed tolerances.primal = false) (hrange : bounds.range? = some range)
    (hunit : |direction| = 1) (hnonneg : 0 ≤ length)
    (hflip : Iterate.isBoundFlip? tolerances model (some row) entering (direction * length) true
      = some false) :
  length ≤ range + tolerances.primal
  := by
  by_contra hlt
  apply Bool.false_ne_true
  apply (isBoundFlip?_primal hbounds hfixed hflip).mpr
  refine ⟨range, hrange, ?_⟩
  rw [abs_mul, hunit, one_mul, abs_of_nonneg hnonneg]
  apply not_le.mp hlt

end RatioTest

/-- The edge of a candidate lies within the bounds up to a step that is limited. -/
theorem Limits.within_alongEdge (h : solver.Limits candidate entries step)
    (himproves : solver.Improves candidate) (hsized : solver.iterate.Sized solver.model)
    (hprimal : 0 ≤ solver.context.tolerances.primal)
    (hrelaxation : solver.context.tolerances.primal * solver.context.tolerances.harris
      ≤ solver.context.tolerances.primal)
    (hrows : solver.iterate.RowsWithin solver.context.tolerances.primal solver.model)
    (hentries : solver.pivotEntries? = some entries)
    (hlarge : ∀ entry ∈ entries,
      entry.alpha = 0 ∨ solver.context.tolerances.ratioPivot ≤ |entry.alpha|)
    {v : ℕ} {bounds : Bounds F} (hbounds : solver.model.bounds? v = some bounds) :
  bounds.Within solver.context.tolerances.primal
    (solver.iterate.alongEdge solver.model candidate.index (candidate.direction * step) v)
  := by
  obtain ⟨side, hside, himproving⟩ := himproves.direction
  obtain ⟨hdirection, hunit⟩ := Candidate.improvingDirection?_spec himproving
  have hpoint := hsized.within_point hprimal hrows hbounds
  rcases hsized.position_or_nonbasic (Model.lt_of_bounds? hbounds) with ⟨i, hi⟩ | hnonbasic
  · rw [Iterate.alongEdge_of_variableAt? hi]
    by_cases hzero : i.val = 0
    · rw [hzero, Basis.variableAt?_zero, Option.some_inj] at hi
      subst hi
      apply Model.within_of_bounds?_zero hbounds
    · obtain ⟨entry, hentry, hrow, halpha⟩ :=
        exists_mem_pivotEntries? hsized hentries hzero (Nat.le_of_lt_succ i.isLt)
      rw [hsized.row?_of_variableAt? hi hbounds, Option.some_inj] at hrow
      have hmove : candidate.direction * step * entry.alpha
          = step * (candidate.direction * entry.alpha) := by
        ring
      rw [halpha, Option.getD_some, hmove]
      apply hpoint.sub_mul hrelaxation h.nonneg
      intro t ht
      rcases hlarge entry hentry with hnone | hlarge
      · unfold Bounds.reach? at ht
        simp [hnone] at ht
      · apply h.rows entry hentry hlarge t
        rw [PivotEntry.reach?_eq hunit hlarge, ← hrow]
        apply ht
  · by_cases hentering : v = candidate.index
    · subst hentering
      obtain ⟨other, stored, hother, hstored, -, hresting⟩ := hsized.restingValue?_eq hnonbasic
      rw [hbounds, Option.some_inj] at hother
      subst hother
      rw [Iterate.restingSide?_eq hbounds hstored, Option.some_inj] at hside
      rw [Iterate.alongEdge_entering hnonbasic, hresting]
      apply Bounds.within_restingValue_add hprimal hside hdirection h.nonneg
      intro range hrange
      apply h.range bounds range hbounds hrange
    · rw [Iterate.alongEdge_of_isNonbasic hnonbasic hentering]
      apply hpoint

end Solver

end RevisedSimplex
