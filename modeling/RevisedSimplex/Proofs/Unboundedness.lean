import RevisedSimplex.Proofs.Optimality

/-!
# Unbounded results

When a variable improves the objective, no row blocks it and it has no bound ahead of itself, the
model is unbounded.  As the variable moves along its edge the equations go on to hold, every row
keeps within its bounds because none lies ahead of it, and the objective decreases at the rate of
the reduced cost.

The rate comes from row `0` of the inverse and the edge from the solved column.  They agree since
both are entries of the same tableau.
-/

open Matrix

namespace RevisedSimplex

variable {F : Type} [ExactScalar F]

namespace Solver

variable {solver loaded : Solver (ProductForm F) F} {candidate : Candidate F}
  {outcome : Outcome (Solver (ProductForm F) F) (Except Error StepResult)}

/-! ### Steps -/

/-- The candidate has its column loaded, improves the objective, and neither a row nor a bound of
its own is ahead of it. -/
structure Unblocked (solver : Solver (ProductForm F) F) (candidate : Candidate F) : Prop where
  loaded : solver.iterate.Loaded solver.model solver.factorization candidate.index
  improves : solver.Improves candidate
  rows : ∃ entries, solver.pivotEntries? = some entries
    ∧ primalRatioTest? solver.context.tolerances candidate.direction entries = none
  range : ∃ bounds, solver.model.bounds? candidate.index = some bounds ∧ bounds.range? = none

/-- A primal step finds the model unbounded only with a candidate that is not blocked. -/
theorem Exact.primalStep?_unbounded (h : solver.Exact) (hcontext : solver.context.ExactSolve)
    (hrows : solver.RowsContained) (hstep : solver.primalStep? = some outcome)
    (hresult : outcome.result = .ok (.done .unbounded)) :
  outcome.state.RowsContained ∧ ∃ candidate, outcome.state.Unblocked candidate
  := by
  rcases primalStep?_cases h.iterate.toRepresented hcontext.drop hstep with
    ⟨rfl, -⟩ | ⟨candidate, loaded, ⟨pivotColumn, rfl, -, hloaded⟩, himproves, henter⟩
  · cases hresult
  · obtain ⟨entries, bounds, hentries, hbounds, ⟨rfl, hblocking, hrange⟩ | ⟨_, _, -, -,
      ⟨_, _, -, hother, -⟩ | ⟨_, -, hother, -⟩⟩⟩ := enter?_cases henter
    · rw [Bounds.finiteRange?_eq] at hrange
      exact ⟨hrows, candidate, hloaded, himproves, ⟨entries, hentries, hblocking⟩, bounds,
        hbounds, hrange⟩
    · rw [hother] at hresult
      cases hresult
    · rw [hother] at hresult
      cases hresult

/-- A dual step never finds the model unbounded. -/
theorem Exact.dualStep?_unbounded (h : solver.Exact) (hcontext : solver.context.ExactSolve)
    (hcomplete : solver.pricing.Complete)
    (hviolations : solver.iterate.violations? solver.context.tolerances solver.model ≠ some [])
    (hstep : solver.dualStep? = some outcome) :
  outcome.result ≠ .ok (.done .unbounded)
  := by
  rcases dualStep?_cases h.iterate.toRepresented hcontext.drop hstep with
    ⟨violations, hread, hnone, -⟩ | ⟨_, _, _, _, _, -, ⟨rfl, -⟩ | ⟨_, _, -, _, pivoted, -, -, -, -,
      hresult, -⟩⟩
  · exfalso
    apply hviolations
    rw [hread, hcomplete.leaving violations hnone]
  · simp [conclude]
  · rw [hresult]
    cases pivoted.result <;> simp [Except.map]

/-- A step finds the model unbounded only from a feasible basis, with a candidate that is not
blocked. -/
theorem Exact.step?_unbounded (h : solver.Exact) (hcontext : solver.context.ExactSolve)
    (hcomplete : solver.pricing.Complete) (hstep : solver.step? = some outcome)
    (hresult : outcome.result = .ok (.done .unbounded)) :
  outcome.state.RowsContained ∧ ∃ candidate, outcome.state.Unblocked candidate
  := by
  unfold Solver.step? at hstep
  obtain ⟨feasible, hfeasible, hstep⟩ := Option.bind_eq_some_iff.mp hstep
  cases feasible with
  | true =>
      apply h.primalStep?_unbounded hcontext _ hstep hresult
      apply (Iterate.isFeasible?_eq_true_iff_contains hcontext.primal h.iterate.sized).mp hfeasible
  | false =>
      exfalso
      apply h.dualStep?_unbounded hcontext hcomplete _ hstep hresult
      apply Iterate.violations?_ne_nil hcontext.primal.ge hfeasible

/-! ### Rays -/

/-- The whole edge of a candidate that is not blocked lies within the bounds. -/
theorem Exact.contains_alongEdge (h : solver.Exact)
    (hprimal : solver.context.tolerances.primal = 0)
    (hratio : solver.context.tolerances.ratioPivot = 0) (hrows : solver.RowsContained)
    (hunblocked : solver.Unblocked candidate) {step : F} (hstep : 0 ≤ step) {v : ℕ}
    {bounds : Bounds F} (hbounds : solver.model.bounds? v = some bounds) :
  bounds.Contains
    (solver.iterate.alongEdge solver.model candidate.index (candidate.direction * step) v)
  := by
  obtain ⟨entries, hentries, hblocking⟩ := hunblocked.rows
  obtain ⟨own, hown, hunlimited⟩ := hunblocked.range
  have hlimits : solver.Limits candidate entries step := by
    refine ⟨hstep, ?_, ?_⟩
    · intro entry hentry hlarge t ht
      rcases primalRatioTest?_cases (by rw [hprimal, zero_mul]) candidate.direction entries with
        ⟨-, hnone⟩ | ⟨_, -, _, hsome, -⟩
      · rw [hnone entry hentry hlarge] at ht
        cases ht
      · rw [hblocking] at hsome
        cases hsome
    · intro other range hother hrange
      rw [hown, Option.some_inj] at hother
      rw [← hother, hunlimited] at hrange
      cases hrange
  have hwithin : bounds.Within solver.context.tolerances.primal
      (solver.iterate.alongEdge solver.model candidate.index (candidate.direction * step) v) := by
    apply hlimits.within_alongEdge hunblocked.improves h.iterate.sized hprimal.ge _ _ hentries _
      hbounds
    · rw [hprimal, zero_mul]
    · intro position row hne hle hrow
      rw [hprimal]
      apply Bounds.within_zero_iff.mpr (hrows position row hne hle hrow)
    · intro entry _
      rw [hratio]
      apply Or.inr (abs_nonneg entry.alpha)
  rw [hprimal] at hwithin
  apply Bounds.within_zero_iff.mp hwithin

/-- The costs of the feasible points have no lower bound if a candidate is not blocked. -/
theorem Exact.exists_feasible_lt (h : solver.Exact)
    (hprimal : solver.context.tolerances.primal = 0)
    (hratio : solver.context.tolerances.ratioPivot = 0)
    (hdual : 0 ≤ solver.context.tolerances.dual) (hrows : solver.RowsContained)
    (hunblocked : solver.Unblocked candidate) (K : F) :
  ∃ structural slack, solver.model.Feasible structural slack
    ∧ solver.model.cost.inner structural < K
  := by
  obtain ⟨side, -, hdirection⟩ := hunblocked.improves.direction
  have hrate := Candidate.direction_mul_neg hdual hdirection
  set rate := candidate.direction
    * Iterate.tableau solver.model solver.factorization 0 candidate.index with hrateDef
  -- The cost along the edge is that of the point plus the step times the rate.
  obtain ⟨step, hstep, hlow⟩ : ∃ step : F, 0 ≤ step
      ∧ -solver.iterate.point solver.model 0 + step * rate < K := by
    refine ⟨(|K + solver.iterate.point solver.model 0| + 1) / -rate, ?_, ?_⟩
    · apply div_nonneg
      · positivity
      · linarith
    · have hquotient : (|K + solver.iterate.point solver.model 0| + 1) / -rate * rate
          = -(|K + solver.iterate.point solver.model 0| + 1) := by
        rw [div_neg, neg_mul, div_mul_cancel₀ _ hrate.ne]
      rw [hquotient]
      have hle := neg_le_abs (K + solver.iterate.point solver.model 0)
      linarith
  set y := solver.iterate.alongEdge solver.model candidate.index (candidate.direction * step)
    with hy
  have hsolves : solver.model.Solves y := h.iterate.solves_alongEdge hunblocked.loaded _
  refine ⟨solver.model.structuralPart y, solver.model.slackPart y, ?_, ?_⟩
  · apply Model.feasible_of_solves hsolves
    intro v bounds hbounds
    apply h.contains_alongEdge hprimal hratio hrows hunblocked hstep hbounds
  · have hcost := (Model.satisfies_of_solves hsolves).2
    rw [hy, hunblocked.loaded.alongEdge_zero] at hcost
    have hmove : candidate.direction * step
        * Iterate.tableau solver.model solver.factorization 0 candidate.index = step * rate := by
      rw [hrateDef]
      ring
    rw [hmove] at hcost
    rw [hy]
    linarith

/-! ### Results -/

variable {model : Model F} {settings : Settings} {context : Context F} {rule : PricingRule F}
  {readings : ℕ → Reading} {patience : ℕ}
  {final : Outcome (Solver (ProductForm F) F) (SolveEnd F)} {result : SolveResult F}

/-- The model `min -x - y` subject to `x - y ≤ 4` and `y - 2 x ≤ 6` for variables that are not
negative. -/
def unlimited : Model ℚ :=
  { Model.sample with
    matrix := ⟨[[(0, 1), (1, -2)], [(0, -1), (1, 1)]], 2, by decide +kernel⟩
    goal := .minimize }

/-- A solve that ends as unbounded has found a feasible point, and there are feasible points of any
cost below, if no entry is too small for the ratio tests. -/
theorem Reached.unbounded_result (hcontext : Context.ofSettings settings = .ok context)
    (htolerances : context.tolerances.Exact) (hratio : context.tolerances.ratioPivot = 0)
    (hrule : rule = .dantzig ∨ rule = .first) (h : Reached model settings rule solver)
    (hsolve : solver.solve? readings patience = some final)
    (hresult : final.result = .solved result) (hstatus : result.status = .unbounded) :
  model.Feasible result.structural result.slack
    ∧ ∀ K : F, ∃ structural slack, model.Feasible structural slack
      ∧ model.cost.inner structural < K
  := by
  obtain ⟨before, reading, flag, turn, hbefore, hturn, hverdict, hread, -⟩ :=
    h.exists_turn hsolve hresult
  rw [hstatus] at hverdict
  have hkeeps := hbefore.keeps hcontext htolerances hrule
  obtain ⟨prepared, outcome, hprepared, hstep, hfound, hlast⟩ := exists_step?_of_turn? hturn hverdict
  obtain ⟨other, hother, hadvances⟩ :=
    hkeeps.consistent.prepare?_eq (hkeeps.exactSolve hcontext htolerances) reading
  rw [hprepared, Option.some_inj] at hother
  subst hother
  have hready := hkeeps.advances hadvances
  have hexactSolve := hready.exactSolve hcontext htolerances
  have hcomplete := hready.complete hrule
  obtain ⟨hrows, candidate, hunblocked⟩ :=
    hadvances.exact.step?_unbounded hexactSolve hcomplete hstep hfound
  have hmoved := (hadvances.exact.step? hexactSolve hcomplete hstep).1
  have hafter := hready.advances hmoved
  rw [hlast] at hread
  obtain ⟨hdual, -⟩ := ExactScalar.tolerances_nonneg_of_ofSettings hcontext
  have hfeasible := hmoved.exact.feasible_of_result? hrows hread
  have hlow := hmoved.exact.exists_feasible_lt
    (by rw [hafter.context]; apply htolerances.primal) (by rw [hafter.context]; apply hratio)
    (by rw [hafter.context]; apply hdual) hrows hunblocked
  rw [hafter.model] at hfeasible hlow
  exact ⟨hfeasible, hlow⟩

/-- After a pivot the solve of an unlimited model finds a ray. -/
theorem Reached.unbounded_result_unlimited :
  Context.ofSettings .sample = .ok (Context.convert .sample : Context ℚ)
    ∧ (Context.convert .sample : Context ℚ).tolerances.Exact
    ∧ (Context.convert .sample : Context ℚ).tolerances.ratioPivot = 0
    ∧ Reached unlimited .sample .dantzig (sample unlimited)
    ∧ ∃ outcome result, (sample unlimited).solve? (fun _ => {}) 5 = some outcome
      ∧ outcome.result = .solved result ∧ result.status = .unbounded
      ∧ unlimited.Feasible result.structural result.slack
      ∧ ∃ structural slack, unlimited.Feasible structural slack
        ∧ unlimited.cost.inner structural < -1000000
  := by
  have hsolved : (((sample unlimited).solve? (fun _ => {}) 5).bind fun outcome =>
      outcome.result.status?) = some .unbounded := by
    decide +kernel
  have hratio : (Context.convert .sample : Context ℚ).tolerances.ratioPivot = 0 := by
    decide +kernel
  obtain ⟨outcome, result, hsolve, hresult, hstatus⟩ := exists_solved hsolved
  obtain ⟨hfeasible, hlow⟩ := Reached.unbounded_result Context.ofSettings_sample
    Context.convert_sample_exact hratio (Or.inl rfl) (sample_reached unlimited) hsolve hresult
    hstatus
  exact ⟨Context.ofSettings_sample, Context.convert_sample_exact, hratio,
    sample_reached unlimited, outcome, result, hsolve, hresult, hstatus, hfeasible, hlow _⟩

end Solver

end RevisedSimplex
