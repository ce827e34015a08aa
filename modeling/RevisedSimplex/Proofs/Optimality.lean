import RevisedSimplex.Proofs.Feasibility
import RevisedSimplex.Proofs.PrimalEdges
import RevisedSimplex.Proofs.SolverResults
import Mathlib.Tactic.LinearCombination

/-!
# Optimal results

When no nonbasic variable has a reduced cost that improves the objective by more than the dual
tolerance, no feasible point costs less than the point of the iterate, up to that tolerance times
the distance of the nonbasic variables.  Row `0` of the tableau gives the difference of the costs
as the sum of the reduced costs times these distances, and each of the terms is bounded by the
side at which its variable rests.
-/

open Matrix

namespace RevisedSimplex

variable {F : Type} [ExactScalar F]

namespace Candidate

variable {dual reducedCost : F}

/-- A variable at a bound that does not improve the objective. -/
theorem le_of_improvingDirection?_eq_none {side : Side}
    (h : improvingDirection? dual reducedCost (some side) = none) :
  -(side.direction * reducedCost) ≤ dual
  := by
  cases side with
  | lower =>
      simp only [improvingDirection?] at h
      split at h
      · cases h
      · rename_i hlt
        change -(1 * _) ≤ _
        linarith
  | upper =>
      simp only [improvingDirection?] at h
      split at h
      · cases h
      · rename_i hlt
        change -(-1 * _) ≤ _
        linarith

/-- A free variable that does not improve the objective. -/
theorem abs_le_of_improvingDirection?_eq_none
    (h : improvingDirection? dual reducedCost none = none) :
  |reducedCost| ≤ dual
  := by
  simp only [improvingDirection?, ExactScalar.magnitude_eq_abs] at h
  split at h
  · cases h
  · rename_i hlt
    apply not_lt.mp hlt

/-- A variable that is no candidate loses at most the dual tolerance for each unit of its move. -/
theorem neg_mul_le_of_improvingDirection?_eq_none {bounds : Bounds F} {stored : Side} {y : F}
    (h : improvingDirection? dual reducedCost (bounds.restingSide? stored) = none)
    (hy : bounds.Contains y) :
  -(reducedCost * (y - bounds.restingValue stored)) ≤ dual * |y - bounds.restingValue stored|
  := by
  set d := y - bounds.restingValue stored with hd
  cases hside : bounds.restingSide? stored with
  | some side =>
      rw [hside] at h
      have hle := le_of_improvingDirection?_eq_none h
      have hnonneg := hy.direction_mul_nonneg hside
      rw [← hd] at hnonneg
      have habs : side.direction * d = |d| := by
        rw [← abs_of_nonneg hnonneg, abs_mul, Side.abs_direction, one_mul]
      have hsquare : (side.direction : F) * side.direction = 1 := by
        cases side <;> simp [Side.direction]
      calc -(reducedCost * d)
          = -(side.direction * reducedCost) * (side.direction * d) := by
            linear_combination reducedCost * d * hsquare
        _ ≤ dual * (side.direction * d) := mul_le_mul_of_nonneg_right hle hnonneg
        _ = dual * |d| := by rw [habs]
  | none =>
      rw [hside] at h
      have hle := abs_le_of_improvingDirection?_eq_none h
      calc -(reducedCost * d)
          ≤ |reducedCost * d| := neg_le_abs _
        _ = |reducedCost| * |d| := abs_mul _ _
        _ ≤ dual * |d| := mul_le_mul_of_nonneg_right hle (abs_nonneg d)

/-- Without candidates no nonbasic variable improves the objective. -/
theorem improvingDirection?_of_list?_eq_nil {tolerances : Tolerances F}
    {multipliers : DenseVector F} {nonbasic : List (Nonbasic F)}
    (h : Candidate.list? tolerances multipliers nonbasic = some []) {x : Nonbasic F}
    (hx : x ∈ nonbasic) :
  ∃ reducedCost, x.column.inner? multipliers = some reducedCost
    ∧ improvingDirection? tolerances.dual reducedCost x.side = none
  := by
  unfold list? at h
  obtain ⟨priced, hpriced, h⟩ := Option.bind_eq_some_iff.mp h
  obtain ⟨pair, hpair, hprice⟩ := mem_mapM_of_mem hpriced hx
  obtain ⟨reducedCost, hcost, heq⟩ := Option.bind_eq_some_iff.mp hprice
  cases heq
  rw [Option.some_inj, List.filterMap_eq_nil_iff] at h
  refine ⟨reducedCost, hcost, ?_⟩
  simpa using h _ hpair

end Candidate

namespace Solver

variable {solver : Solver (ProductForm F) F}

/-! ### Reduced costs -/

/-- In a basis that is priced out no nonbasic variable improves the objective. -/
theorem Exact.improvingDirection?_eq_none (h : solver.Exact)
    (hcontext : solver.context.ExactSolve) (hcomplete : solver.pricing.Complete)
    (hpriced : solver.PricedOut) {v : ℕ} (hv : solver.iterate.basis.isNonbasic v = true) :
  ∃ side, solver.iterate.restingSide? solver.model v = some side
    ∧ Candidate.improvingDirection? solver.context.tolerances.dual
      (Iterate.tableau solver.model solver.factorization 0 v) side = none
  := by
  obtain ⟨unit, multipliers, movable, candidates, hunit, hmultipliers, hmovable, hcandidates,
    hnone⟩ := hpriced
  have hnil := hcomplete.entering candidates hnone
  subst hnil
  obtain ⟨x, hx, rfl⟩ :=
    (Iterate.movable_of_isNonbasic hcontext.primal h.iterate.sized hv).exists_mem hmovable
  obtain ⟨-, hside, hcolumn⟩ := Iterate.mem_movable? hmovable hx
  obtain ⟨reducedCost, hcost, hdirection⟩ :=
    Candidate.improvingDirection?_of_list?_eq_nil hcandidates hx
  have hinner :=
    inner?_multipliers h.iterate.toRepresented hcontext.drop hunit hmultipliers hcolumn
  rw [hcost, Option.some_inj] at hinner
  rw [hinner] at hdirection
  exact ⟨x.side, hside, hdirection⟩

/-- No feasible point costs less than the point of a basis that is priced out, up to the dual
tolerance. -/
theorem Exact.cost_le (h : solver.Exact) (hcontext : solver.context.ExactSolve)
    (hcomplete : solver.pricing.Complete) (hpriced : solver.PricedOut) {y : ℕ → F}
    (hy : solver.model.Solves y)
    (hcontains : ∀ v bounds, solver.model.bounds? v = some bounds → bounds.Contains (y v)) :
  -solver.iterate.point solver.model 0 ≤ -y 0 + solver.context.tolerances.dual
    * (solver.iterate.basis.nonbasic.map fun v =>
      |y v - solver.iterate.point solver.model v|).sum
  := by
  have hdummy : solver.iterate.basis.variableAt? (0 : Fin (solver.model.nrRows + 1)).val
      = some 0 := Basis.variableAt?_zero _
  rw [h.iterate.solution_at hy hdummy, ← List.sum_map_mul_left]
  have hterms : -(solver.iterate.basis.nonbasic.map fun v =>
        Iterate.tableau solver.model solver.factorization 0 v
          * (y v - solver.iterate.point solver.model v)).sum
      ≤ (solver.iterate.basis.nonbasic.map fun v => solver.context.tolerances.dual
        * |y v - solver.iterate.point solver.model v|).sum := by
    rw [List.sum_neg, List.map_map]
    apply List.sum_le_sum
    intro v hv
    have hnonbasic := Basis.mem_nonbasic.mp hv
    obtain ⟨bounds, stored, hbounds, hstored, -, hpoint⟩ :=
      h.iterate.sized.restingValue?_eq hnonbasic
    obtain ⟨side, hside, hdirection⟩ :=
      h.improvingDirection?_eq_none hcontext hcomplete hpriced hnonbasic
    rw [Iterate.restingSide?_eq hbounds hstored] at hside
    cases hside
    dsimp only [Function.comp_apply]
    rw [hpoint]
    apply Candidate.neg_mul_le_of_improvingDirection?_eq_none hdirection
      (hcontains v bounds hbounds)
  linarith

/-- The point of a solver whose rows are within their bounds is within all bounds. -/
theorem Exact.contains_point (h : solver.Exact) (hrows : solver.RowsContained) {v : ℕ}
    {bounds : Bounds F} (hbounds : solver.model.bounds? v = some bounds) :
  bounds.Contains (solver.iterate.point solver.model v)
  := by
  apply Bounds.within_zero_iff.mp
  apply h.iterate.sized.within_point le_rfl _ hbounds
  intro position row hne hle hrow
  apply Bounds.within_zero_iff.mpr (hrows position row hne hle hrow)

/-! ### Results -/

variable {model : Model F} {settings : Settings} {context : Context F} {rule : PricingRule F}
  {readings : ℕ → Reading} {patience : ℕ}
  {outcome : Outcome (Solver (ProductForm F) F) (SolveEnd F)} {result : SolveResult F}

/-- The result of an exact solver whose rows are within their bounds is feasible. -/
theorem Exact.feasible_of_result? (h : solver.Exact) (hrows : solver.RowsContained)
    {status : Status} (hresult : solver.result? status = some result) :
  solver.model.Feasible result.structural result.slack
  := by
  obtain ⟨hstructural, hslack, -⟩ := h.result?_spec hresult
  rw [hstructural, hslack]
  apply Model.feasible_of_solves h.iterate.solves
  intro v bounds hbounds
  apply h.contains_point hrows hbounds

/-- The conclusion that the basis is optimal, for the point of an exact solver. -/
theorem Exact.optimal (h : solver.Exact) (hcontext : solver.context.ExactSolve)
    (hcomplete : solver.pricing.Complete) (hrows : solver.RowsContained)
    (hpriced : solver.PricedOut) {status : Status}
    (hresult : solver.result? status = some result) :
  solver.model.Feasible result.structural result.slack
    ∧ ∀ structural slack, solver.model.Feasible structural slack →
      solver.model.cost.inner result.structural
        ≤ solver.model.cost.inner structural + solver.context.tolerances.dual
          * (solver.iterate.basis.nonbasic.map fun v =>
            |solver.model.pointOf structural slack v
              - solver.model.pointOf result.structural result.slack v|).sum
  := by
  obtain ⟨hstructural, hslack, -⟩ := h.result?_spec hresult
  have hsolves := h.iterate.solves
  constructor
  · apply h.feasible_of_result? hrows hresult
  · intro structural slack hfeasible
    have hle := h.cost_le hcontext hcomplete hpriced
      (Model.solves_of_satisfies hfeasible.toSatisfies) hfeasible.contains
    rw [(Model.satisfies_of_solves hsolves).2, Model.pointOf_zero, neg_neg, neg_neg,
      ← hstructural] at hle
    apply le_trans hle
    apply le_of_eq
    congr 3
    apply List.map_congr_left
    intro v hv
    have hlt : v < solver.model.nrVariables := by
      rw [← h.iterate.sized.nrVariables]
      apply (Basis.isNonbasic_iff.mp (Basis.mem_nonbasic.mp hv)).1
    rw [hstructural, hslack, Model.pointOf_parts hsolves hlt]

/-- A solve that ends as optimal has found a feasible point, and no feasible point costs less, up
to the dual tolerance times the distance of the nonbasic variables.  With dual tolerance zero the
point is an optimum in the direction of the goal. -/
theorem Reached.optimal_result (hcontext : Context.ofSettings settings = .ok context)
    (htolerances : context.tolerances.Exact) (hrule : rule = .dantzig ∨ rule = .first)
    (h : Reached model settings rule solver)
    (hsolve : solver.solve? readings patience = some outcome)
    (hresult : outcome.result = .solved result) (hstatus : result.status = .optimal) :
  model.Feasible result.structural result.slack
    ∧ (∀ structural slack, model.Feasible structural slack →
      model.cost.inner result.structural
        ≤ model.cost.inner structural + context.tolerances.dual
          * (outcome.state.iterate.basis.nonbasic.map fun v =>
            |model.pointOf structural slack v
              - model.pointOf result.structural result.slack v|).sum)
    ∧ (context.tolerances.dual = 0 → ∀ structural slack, model.Feasible structural slack →
      match model.goal with
      | .minimize => model.ownCost.inner result.structural ≤ model.ownCost.inner structural
      | .maximize => model.ownCost.inner structural ≤ model.ownCost.inner result.structural)
  := by
  obtain ⟨hkeeps, hexact, hread, hoptimal, -⟩ :=
    h.solve?_spec hcontext htolerances hrule hsolve hresult
  obtain ⟨hrows, hpriced⟩ := hoptimal hstatus
  obtain ⟨hfeasible, hcost⟩ := hexact.optimal (hkeeps.exactSolve hcontext htolerances)
    (hkeeps.complete hrule) hrows hpriced hread
  rw [hkeeps.model] at hfeasible hcost
  rw [hkeeps.context] at hcost
  refine ⟨hfeasible, hcost, ?_⟩
  intro hdual structural slack hother
  have hle := hcost structural slack hother
  rw [hdual, zero_mul, add_zero] at hle
  simp only [Model.ownCost_inner]
  cases model.goal with
  | minimize => apply hle
  | maximize => apply neg_le_neg hle

/-- The sample model has its optimum where both rows are tight. -/
theorem Reached.optimal_result_sample :
  Context.ofSettings .sample = .ok (Context.convert .sample : Context ℚ)
    ∧ (Context.convert .sample : Context ℚ).tolerances.Exact
    ∧ Reached Model.sample .sample .dantzig (sample .sample)
    ∧ ∃ outcome result, (sample .sample).solve? (fun _ => {}) 5 = some outcome
      ∧ outcome.result = .solved result ∧ result.status = .optimal
      ∧ Model.sample.Feasible result.structural result.slack
      ∧ ∀ structural slack, Model.sample.Feasible structural slack →
        Model.sample.ownCost.inner structural ≤ Model.sample.ownCost.inner result.structural
  := by
  have hsolved : (((sample .sample).solve? (fun _ => {}) 5).bind fun outcome =>
      outcome.result.status?) = some .optimal := by
    decide +kernel
  obtain ⟨outcome, result, hsolve, hresult, hstatus⟩ := exists_solved hsolved
  obtain ⟨hfeasible, -, hoptimum⟩ := Reached.optimal_result Context.ofSettings_sample
    Context.convert_sample_exact (Or.inl rfl) (sample_reached .sample) hsolve hresult hstatus
  exact ⟨Context.ofSettings_sample, Context.convert_sample_exact, sample_reached .sample,
    outcome, result, hsolve, hresult, hstatus, hfeasible, hoptimum (by decide +kernel)⟩

end Solver

end RevisedSimplex
