import RevisedSimplex.Proofs.PrimalEdges
import RevisedSimplex.Proofs.SolverTurns

/-!
# Primal iterations keep a basis feasible

The step of a primal iteration is not the smallest one.  The ratio test relaxes the bounds, and takes
the row with the largest pivot among those that block within the relaxed step; and a bound flip is
chosen only if the range is shorter than the step by more than the tolerance.  Still no value leaves
its bounds by more than the tolerance, and the objective does not increase.
-/

namespace RevisedSimplex

/-- Exact numbers with tolerances that matter. -/
def Context.tolerant : Context ℚ where
  tolerances :=
    { primal := 1 / 10, dual := 1 / 1000, pivot := 1 / 10 ^ 9, ratioPivot := 1 / 100
      factorizationPivot := 1 / 10 ^ 10, drop := 0, harris := 1 }
  policy := {}
  rowSelection := .largestMagnitude

theorem Context.tolerant_exact :
  Context.tolerant.Exact
  where
    drop := rfl
    factorizationPivot := by
      change (0 : ℚ) < 1 / 10 ^ 10
      norm_num
    rowSelection := trivial

variable {F : Type} [ExactScalar F]

namespace Iterate

variable {model : Model F} {iterate after : Iterate F} {tolerance : F}

/-- The rows are within their bounds if the basic variables have values of a point that is. -/
theorem rowsWithin_of_point {y : ℕ → F}
    (hpoint : ∀ i v, iterate.basis.variableAt? i = some v → iterate.point model v = y v)
    (hwithin : ∀ v bounds, model.bounds? v = some bounds → bounds.Within tolerance (y v)) :
  iterate.RowsWithin tolerance model
  := by
  intro position row _ _ hrow
  obtain ⟨-, howner, hvalue, hbounds⟩ := row?_spec hrow
  have hsame : iterate.point model row.owner = row.value := by
    unfold point
    rw [value?_of_variableAt? howner, hvalue]
    rfl
  rw [← hsame, hpoint position row.owner howner]
  apply hwithin row.owner row.bounds hbounds

end Iterate

namespace Solver

variable {solver : Solver (ProductForm F) F} {candidate : Candidate F}
  {outcome : Outcome (Solver (ProductForm F) F) (Except Error StepResult)} {kind : IterationKind}

/-- What an iteration of an entering candidate does.  The basic variables have moved along the edge
by a step within the limits. -/
theorem exists_limits_of_enter?
    (h : solver.iterate.Represented solver.model solver.factorization)
    (hloaded : solver.iterate.Loaded solver.model solver.factorization candidate.index)
    (himproves : solver.Improves candidate) (hprimal : 0 ≤ solver.context.tolerances.primal)
    (hharris : 0 ≤ solver.context.tolerances.harris)
    (henter : solver.enter? candidate = some outcome)
    (hresult : outcome.result = .ok (.iterated kind)) :
  ∃ iterate factorization counters entries step,
    outcome.state = { solver with iterate, factorization, counters }
      ∧ iterate.Represented solver.model factorization
      ∧ iterate.pivotColumn = solver.iterate.pivotColumn
      ∧ solver.pivotEntries? = some entries ∧ solver.Limits candidate entries step
      ∧ ∀ i v, iterate.basis.variableAt? i = some v → iterate.point solver.model v
        = solver.iterate.alongEdge solver.model candidate.index (candidate.direction * step) v
  := by
  obtain ⟨side, -, himproving⟩ := himproves.direction
  obtain ⟨-, hunit⟩ := Candidate.improvingDirection?_spec himproving
  obtain ⟨entries, bounds, hentries, hbounds, ⟨rfl, -⟩ | ⟨length, pivoted, hlength, hpivoted,
    ⟨_, n, hkind, -, hstate, -⟩ | ⟨_, -, herror, -⟩⟩⟩ := enter?_cases henter
  · cases hresult
  · obtain ⟨other, hother, hfixed⟩ := himproves.movable.range
    rw [hbounds, Option.some_inj] at hother
    subst hother
    obtain ⟨hnonneg, hrows⟩ :=
      le_reach?_of_primalRatioTest? (mul_nonneg hprimal hharris) hlength
    rcases represented_of_pivot? h hloaded hpivoted with
      ⟨e, -, herror, -⟩
      | ⟨other, range, after, counters, hother, hrange, hflip, hflipped, hafter, -, hpivotedState⟩
      | ⟨row, leaving, own, after, factorization, counters, hrow, hflip, hexchanged, hafter, -,
        hpivotedState⟩
    · rw [hkind] at herror
      cases herror
    · rw [hbounds, Option.some_inj] at hother
      subst hother
      have hle : range ≤ length := range_le_of_isBoundFlip? hprimal hbounds hfixed hrange hunit
        hnonneg hlength hflip
      have hpositive := Bounds.range_nonneg hrange
      rw [Iterate.step_eq_direction_mul hunit hpositive rfl hle] at hflipped
      rw [hpivotedState] at hstate
      refine ⟨after, _, _, entries, range, hstate, hafter, hflipped.pivotColumn, hentries,
        ⟨hpositive, ?_, ?_⟩, ?_⟩
      · intro entry hentry hlarge t ht
        apply hle.trans (hrows entry hentry hlarge t ht)
      · intro other length hother hlength
        rw [hbounds, Option.some_inj] at hother
        rw [← hother, hrange, Option.some_inj] at hlength
        linarith
      · intro i v hi
        apply hflipped.point_of_variableAt? hi
    · rw [hrow] at hflip
      rw [hpivotedState] at hstate
      refine ⟨after, _, _, entries, length, hstate, hafter, hexchanged.pivotColumn, hentries,
        ⟨hnonneg, hrows, ?_⟩, ?_⟩
      · intro other range hother hrange
        rw [hbounds, Option.some_inj] at hother
        subst hother
        apply le_range_of_isBoundFlip? hbounds hfixed hrange hunit hnonneg hflip
      · intro i v hi
        apply hexchanged.point_of_variableAt? hi
  · rw [herror] at hresult
    cases hresult

/-- A primal iteration keeps the basis feasible and does not increase the objective.

Let the factorization represent a feasible basis, in exact numbers without a drop tolerance and with
a relaxation of at most the primal tolerance.  The other tolerances and the pricing rule do not
matter, and the values of the basic variables need not solve the equations.  If a primal step
carries out an iteration, and none of the rows has an entry in the pivot column that is small but
not zero, then all values are within the primal tolerance of their bounds afterwards, that of the
entering variable included, and the factorization represents the basis again. -/
theorem feasible_of_primalStep?
    (h : solver.iterate.Represented solver.model solver.factorization)
    (hdrop : solver.context.tolerances.drop = 0)
    (hprimal : 0 ≤ solver.context.tolerances.primal)
    (hdual : 0 ≤ solver.context.tolerances.dual)
    (hharris : 0 ≤ solver.context.tolerances.harris)
    (hrelaxation : solver.context.tolerances.harris ≤ 1)
    (hfeasible : solver.iterate.isFeasible? solver.context.tolerances solver.model = some true)
    (hstep : solver.primalStep? = some outcome)
    (hresult : outcome.result = .ok (.iterated kind))
    (hlarge : ∀ i alpha, i ≠ 0 → outcome.state.iterate.pivotColumn[i]? = some alpha →
      alpha = 0 ∨ solver.context.tolerances.ratioPivot ≤ |alpha|) :
  ∃ iterate factorization counters,
    outcome.state = { solver with iterate, factorization, counters }
      ∧ iterate.Represented solver.model factorization
      ∧ iterate.isFeasible? solver.context.tolerances solver.model = some true
      ∧ (∀ v bounds, solver.model.bounds? v = some bounds →
        bounds.Within solver.context.tolerances.primal (iterate.point solver.model v))
      ∧ iterate.objective ≤ solver.iterate.objective
  := by
  rcases primalStep?_cases h hdrop hstep with
    ⟨rfl, -⟩ | ⟨candidate, loaded, ⟨pivotColumn, rfl, hrepresented, hloaded⟩, himproves, henter⟩
  · cases hresult
  obtain ⟨iterate, factorization, counters, entries, step, hstate, hafter, hcolumn, hentries,
    hlimits, hedge⟩ := exists_limits_of_enter? hrepresented hloaded himproves hprimal hharris
      henter hresult
  refine ⟨iterate, factorization, counters, hstate, hafter, ?_⟩
  have hrows := (Iterate.isFeasible?_eq_true_iff hprimal h.sized).mp hfeasible
  have hwithin (v : ℕ) (bounds : Bounds F) (hbounds : solver.model.bounds? v = some bounds) :=
    hlimits.within_alongEdge himproves hrepresented.sized hprimal
      (mul_le_of_le_one_right hprimal hrelaxation) hrows hentries
      (fun entry hentry => by
        obtain ⟨hne, -, -, halpha⟩ := mem_pivotEntries? hrepresented.sized hentries hentry
        apply hlarge entry.row.position entry.alpha hne
        rw [hstate]
        change iterate.pivotColumn[_]? = _
        rw [hcolumn]
        apply halpha)
      hbounds
  have hrowsAfter : iterate.RowsWithin solver.context.tolerances.primal solver.model :=
    Iterate.rowsWithin_of_point hedge hwithin
  refine ⟨(Iterate.isFeasible?_eq_true_iff hprimal hafter.sized).mpr hrowsAfter, ?_, ?_⟩
  · intro v bounds hbounds
    apply hafter.sized.within_point hprimal hrowsAfter hbounds
  · -- The dummy moves along the edge as well, and with it the objective.
    obtain ⟨side, -, himproving⟩ := himproves.direction
    have hrate := Candidate.direction_mul_neg hdual himproving
    have hdummy := hedge 0 0 (Basis.variableAt?_zero _)
    rw [hloaded.alongEdge_zero] at hdummy
    have hdecrease := mul_nonpos_of_nonneg_of_nonpos hlimits.nonneg hrate.le
    have hmove : candidate.direction * step
          * Iterate.tableau solver.model solver.factorization 0 candidate.index
        = step * (candidate.direction
          * Iterate.tableau solver.model solver.factorization 0 candidate.index) := by
      ring
    rw [Iterate.objective_eq solver.model, Iterate.objective_eq solver.model, hdummy, hmove]
    change -(solver.iterate.point solver.model 0 - _) ≤ -solver.iterate.point solver.model 0
    linarith

/-- The smallest value of `-3x` for `-x ≥ -1` and `2x ≤ 21/10`. -/
def twice : Model ℚ where
  matrix := ⟨[[(0, -1), (1, 2)]], 2, by decide +kernel⟩
  cost := [-3]
  rightHandSide := [-1, 21 / 10]
  relations := [.greater, .less]
  goal := .minimize
  bounds := [.atMost 0, .atLeast 0, .atLeast 0]
  cost_length := rfl
  rightHandSide_length := rfl
  relations_length := rfl
  bounds_length := rfl

/-- The second row blocks within the relaxed step and has the larger pivot.  Its exact step takes the
slack of the first row above zero, by less than the tolerance. -/
theorem feasible_of_primalStep?_twice :
  ∃ (solver : Solver (ProductForm ℚ) ℚ)
      (outcome : Outcome (Solver (ProductForm ℚ) ℚ) (Except Error StepResult)),
    solver.model = twice ∧ solver.context = .tolerant
      ∧ solver.iterate.Represented solver.model solver.factorization
      ∧ solver.iterate.isFeasible? solver.context.tolerances solver.model = some true
      ∧ solver.primalStep? = some outcome
      ∧ outcome.result = .ok (.iterated .majorPivot)
      ∧ outcome.state.iterate.pivotColumn = [-3, -1, 2]
      ∧ outcome.state.iterate.values = [63 / 20, 1 / 20, 21 / 20]
      ∧ outcome.state.iterate.isFeasible? solver.context.tolerances solver.model = some true
      ∧ outcome.state.iterate.objective ≤ solver.iterate.objective
  := by
  let slack : Solver (ProductForm ℚ) ℚ := .start twice {} .tolerant (.identity 2) .dantzig
  have hsized : slack.iterate.Sized slack.model := ⟨rfl, rfl, rfl, rfl⟩
  obtain ⟨rebuilt, iterate, factorization, counters, hrebuilt, hstate, hrepresented, -⟩ :=
    represented_of_rebuild? hsized rfl Context.tolerant_exact
  have hcomputed : (slack.rebuild?.bind fun rebuilt => rebuilt.state.primalStep?.map fun outcome =>
      (rebuilt.state.iterate.isFeasible? rebuilt.state.context.tolerances rebuilt.state.model,
        iterated? outcome.result, outcome.state.iterate.pivotColumn, outcome.state.iterate.values))
      = some (some true, some .majorPivot, [-3, -1, 2], [63 / 20, 1 / 20, 21 / 20]) := by
    decide +kernel
  rw [hrebuilt, Option.bind_some, hstate] at hcomputed
  obtain ⟨outcome, hstep, hcomputed⟩ := Option.map_eq_some_iff.mp hcomputed
  simp only [Prod.mk.injEq] at hcomputed
  obtain ⟨hfeasible, hkind, hcolumn, hvalues⟩ := hcomputed
  have hresult := iterated?_eq_some_iff.mp hkind
  obtain ⟨after, _, _, hafter, -, hagain, -, hobjective⟩ := feasible_of_primalStep?
    hrepresented (show Context.tolerant.tolerances.drop = 0 from rfl)
    (show (0 : ℚ) ≤ 1 / 10 by norm_num) (show (0 : ℚ) ≤ 1 / 1000 by norm_num)
    (show (0 : ℚ) ≤ 1 by norm_num) (show (1 : ℚ) ≤ 1 from le_rfl) hfeasible hstep hresult
    (by
      rw [hcolumn]
      intro i alpha hi halpha
      refine Or.inr ?_
      match i, halpha with
      | 1, halpha =>
          cases halpha
          norm_num [slack, start, Context.tolerant]
      | 2, halpha =>
          cases halpha
          norm_num [slack, start, Context.tolerant])
  refine ⟨_, outcome, rfl, rfl, hrepresented, hfeasible, hstep, hresult, hcolumn, hvalues, ?_, ?_⟩
  · rw [hafter]
    apply hagain
  · rw [hafter]
    apply hobjective

end Solver

end RevisedSimplex
