import RevisedSimplex.Proofs.Feasibility
import RevisedSimplex.Proofs.SolverResults
import Mathlib.Tactic.LinearCombination

/-!
# Infeasible results

When a row violates a bound and no variable is eligible to enter for it, the model has no feasible
point.  The row of the tableau expresses the leaving variable by the nonbasic ones.  Each of these
can move it further away from the bound only, since the sign of its entry is wrong for the side at
which it rests, and so the row is a certificate of infeasibility.

A dual ratio test without a result has no eligible variable at all, because the variable with the
smallest relaxed ratio always lies within that ratio.
-/

namespace RevisedSimplex

variable {F : Type} [ExactScalar F]

/-! ### The dual ratio test -/

/-- A variable that is not eligible moves the leaving variable in the wrong direction only. -/
theorem PivotRowEntry.mul_sub_of_eligible?_eq_none {violated : Side} {entry : PivotRowEntry F}
    {bounds : Bounds F} {stored : Side} {y : F}
    (h : entry.eligible? 0 (decide (violated = .lower)) = none)
    (hside : bounds.restingSide? stored = entry.side) (hy : bounds.Contains y) :
  0 ≤ violated.direction * (entry.alpha * (y - bounds.restingValue stored))
  := by
  have hsign := sign_of_eligible?_eq_none h (abs_nonneg _)
  cases hentry : entry.side with
  | some side =>
      rw [hentry] at hside
      rw [direction_of_side hentry] at hsign
      have hmove := hy.direction_mul_nonneg hside
      have hsquare : (side.direction : F) * side.direction = 1 := by
        cases side <;> simp [Side.direction]
      have hproduct : violated.direction * (entry.alpha * (y - bounds.restingValue stored))
          = violated.direction * (side.direction * entry.alpha)
            * (side.direction * (y - bounds.restingValue stored)) := by
        linear_combination -(violated.direction * entry.alpha
          * (y - bounds.restingValue stored)) * hsquare
      rw [hproduct]
      apply mul_nonneg hsign hmove
  | none =>
      rw [alpha_eq_zero_of_free hentry hsign, zero_mul, mul_zero]

namespace Solver

variable {solver : Solver (ProductForm F) F}

/-! ### Certificates -/

/-- No nonbasic variable can move the leaving variable of a stuck row towards its bound. -/
theorem Exact.tableau_of_stuck (h : solver.Exact) (hprimal : solver.context.tolerances.primal = 0)
    (hratio : solver.context.tolerances.ratioPivot = 0)
    (hdual : 0 ≤ solver.context.tolerances.dual)
    (hharris : 0 ≤ solver.context.tolerances.harris) {i : Fin (solver.model.nrRows + 1)}
    {row : BasicRow F} {side : Side} {bound : F} {entries : List (PivotRowEntry F)}
    (hleaves : solver.Leaves i row side bound entries)
    (hnone : dualRatioTest? solver.context.tolerances
      (row.bounds.lower.any fun l => row.value < l) entries = none) {y : ℕ → F}
    (hcontains : ∀ v bounds, solver.model.bounds? v = some bounds → bounds.Contains (y v))
    {v : ℕ} (hv : solver.iterate.basis.isNonbasic v = true) :
  0 ≤ side.direction * (Iterate.tableau solver.model solver.factorization i v
    * (y v - solver.iterate.point solver.model v))
  := by
  obtain ⟨bounds, stored, hbounds, hstored, -, hpoint⟩ := h.iterate.sized.restingValue?_eq hv
  obtain ⟨entry, hentry, rfl⟩ :=
    hleaves.pivotRow.complete v (Iterate.movable_of_isNonbasic hprimal h.iterate.sized hv)
  have hside := hleaves.pivotRow.side entry hentry
  rw [Iterate.restingSide?_eq hbounds hstored, Option.some_inj] at hside
  have heligible := eligible?_of_dualRatioTest?_eq_none hdual hharris hnone hentry
  rw [hratio, Bounds.any_lower_of_violated? hprimal.ge hleaves.violated] at heligible
  rw [hpoint, ← hleaves.pivotRow.alpha entry hentry]
  apply PivotRowEntry.mul_sub_of_eligible?_eq_none heligible hside (hcontains _ bounds hbounds)

/-- A model with a stuck row has no solution within its bounds. -/
theorem Exact.not_contains_of_stuck (h : solver.Exact)
    (hprimal : solver.context.tolerances.primal = 0)
    (hratio : solver.context.tolerances.ratioPivot = 0)
    (hdual : 0 ≤ solver.context.tolerances.dual)
    (hharris : 0 ≤ solver.context.tolerances.harris) (hstuck : solver.Stuck) {y : ℕ → F}
    (hy : solver.model.Solves y) :
  ¬ ∀ v bounds, solver.model.bounds? v = some bounds → bounds.Contains (y v)
  := by
  intro hcontains
  obtain ⟨i, row, side, bound, entries, hleaves, hnone⟩ := hstuck
  obtain ⟨-, howner, hvalue, hbounds⟩ := Iterate.row?_spec hleaves.row_eq
  have hvalues := DenseVector.getElem?_eq_entries h.iterate.sized.values i
  rw [hvalue, Option.some_inj] at hvalues
  have hsolution := h.iterate.solution_at hy howner
  rw [Iterate.point_of_variableAt? howner, ← hvalues] at hsolution
  have hrange := hcontains row.owner row.bounds hbounds
  have hsum : 0 ≤ side.direction * (solver.iterate.basis.nonbasic.map fun w =>
      Iterate.tableau solver.model solver.factorization i w
        * (y w - solver.iterate.point solver.model w)).sum := by
    rw [← List.sum_map_mul_left]
    apply List.sum_nonneg
    intro x hx
    obtain ⟨w, hw, rfl⟩ := List.mem_map.mp hx
    apply h.tableau_of_stuck hprimal hratio hdual hharris hleaves hnone hcontains
      (Basis.mem_nonbasic.mp hw)
  have hviolated := hleaves.violated
  rw [hprimal] at hviolated
  rcases Bounds.violated?_spec hviolated with ⟨rfl, hlower, hlt⟩ | ⟨rfl, hupper, hlt⟩
  · have hle := hrange.lower bound hlower
    change 0 ≤ 1 * _ at hsum
    linarith
  · have hle := hrange.upper bound hupper
    change 0 ≤ -1 * _ at hsum
    linarith

/-! ### Results -/

variable {model : Model F} {settings : Settings} {context : Context F} {rule : PricingRule F}
  {readings : ℕ → Reading} {patience : ℕ}
  {outcome : Outcome (Solver (ProductForm F) F) (SolveEnd F)} {result : SolveResult F}

/-- The model `x + y ≥ 3` with both variables between `0` and `1`. -/
def contradictory : Model ℚ where
  matrix := ⟨[[(0, 1)], [(0, 1)]], 1, by decide +kernel⟩
  cost := [1, 2]
  rightHandSide := [3]
  relations := [.greater]
  goal := .minimize
  bounds := [.atMost 0, .between 0 1 (by decide +kernel), .between 0 1 (by decide +kernel)]
  cost_length := rfl
  rightHandSide_length := rfl
  relations_length := rfl
  bounds_length := rfl

/-- The model of a solve that ends as infeasible has no feasible point, if singular columns are
repaired and no entry is too small for the ratio tests. -/
theorem Reached.infeasible_result (hcontext : Context.ofSettings settings = .ok context)
    (htolerances : context.tolerances.Exact) (hratio : context.tolerances.ratioPivot = 0)
    (hpolicy : settings.singularPolicy = .repair) (hrule : rule = .dantzig ∨ rule = .first)
    (h : Reached model settings rule solver)
    (hsolve : solver.solve? readings patience = some outcome)
    (hresult : outcome.result = .solved result) (hstatus : result.status = .infeasible) :
  ¬ ∃ structural slack, model.Feasible structural slack
  := by
  rintro ⟨structural, slack, hfeasible⟩
  obtain ⟨hkeeps, hexact, -, -, hinfeasible⟩ :=
    h.solve?_spec hcontext htolerances hrule hsolve hresult
  obtain ⟨hdual, hharris⟩ := ExactScalar.tolerances_nonneg_of_ofSettings hcontext
  have hnone := hexact.not_contains_of_stuck (y := model.pointOf structural slack)
    (by rw [hkeeps.context]; apply htolerances.primal) (by rw [hkeeps.context]; apply hratio)
    (by rw [hkeeps.context]; apply hdual) (by rw [hkeeps.context]; apply hharris)
    (hinfeasible hpolicy hstatus)
    (by rw [hkeeps.model]; apply Model.solves_of_satisfies hfeasible.toSatisfies)
  rw [hkeeps.model] at hnone
  apply hnone hfeasible.contains

/-- After two dual pivots the solve of a contradictory model finds that it has no feasible
point. -/
theorem Reached.infeasible_result_contradictory :
  Context.ofSettings .sample = .ok (Context.convert .sample : Context ℚ)
    ∧ (Context.convert .sample : Context ℚ).tolerances.Exact
    ∧ (Context.convert .sample : Context ℚ).tolerances.ratioPivot = 0
    ∧ Settings.sample.singularPolicy = .repair
    ∧ Reached contradictory .sample .dantzig (sample contradictory)
    ∧ (∃ outcome result, (sample contradictory).solve? (fun _ => {}) 5 = some outcome
      ∧ outcome.result = .solved result ∧ result.status = .infeasible)
    ∧ ¬ ∃ structural slack, contradictory.Feasible structural slack
  := by
  have hsolved : (((sample contradictory).solve? (fun _ => {}) 5).bind fun outcome =>
      outcome.result.status?) = some .infeasible := by
    decide +kernel
  have hratio : (Context.convert .sample : Context ℚ).tolerances.ratioPivot = 0 := by
    decide +kernel
  obtain ⟨outcome, result, hsolve, hresult, hstatus⟩ := exists_solved hsolved
  refine ⟨Context.ofSettings_sample, Context.convert_sample_exact, hratio, rfl,
    sample_reached contradictory, ⟨outcome, result, hsolve, hresult, hstatus⟩, ?_⟩
  apply Reached.infeasible_result Context.ofSettings_sample Context.convert_sample_exact hratio rfl
    (Or.inl rfl) (sample_reached contradictory) hsolve hresult hstatus

end Solver

end RevisedSimplex
