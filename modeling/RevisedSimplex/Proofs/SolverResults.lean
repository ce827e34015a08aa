import RevisedSimplex.Proofs.SolverRuns

/-!
# What a solver holds, and its results

An exact solver is `Faithful` to its model, in terms of what can be read off it: its factorization
solves the column at each position to the unit vector of that position, the values of all variables
satisfy `A x + s = b`, and the objective is the cost of these values.

By the invariant of reached solvers this holds whenever a step begins, after every turn, and for
the result of every solve.
-/

open Matrix

namespace RevisedSimplex

namespace Solver

variable {F : Type} [ExactScalar F] {model : Model F} {settings : Settings} {context : Context F}
  {rule : PricingRule F} {solver : Solver (ProductForm F) F}

/-! ### Reading an exact solver -/

/-- The iterate is current, the factorization is the inverse of the basis, and the values satisfy
the equations with the objective as their cost. -/
structure Faithful (model : Model F) (context : Context F) (solver : Solver (ProductForm F) F) :
    Prop where
  current : solver.iterate.current = true
  inverse : ∀ i ≤ model.nrRows, ∃ v column unit,
    solver.iterate.basis.variableAt? i = some v ∧ model.denseColumn? v = some column
      ∧ DenseVector.unit? i (model.nrRows + 1) = some unit
      ∧ solver.factorization.ftran? context column = some unit
  values : ∃ structural slack,
    (List.range' (model.nrRows + 1) model.nrColumns).mapM (solver.iterate.value? model)
        = some structural
      ∧ (List.range' 1 model.nrRows).mapM (solver.iterate.value? model) = some slack
      ∧ model.Satisfies structural slack
      ∧ solver.iterate.objective = model.cost.inner structural

/-- The values of the structural variables, listed. -/
theorem Exact.mapM_structural (h : solver.Exact) :
  (List.range' (solver.model.nrRows + 1) solver.model.nrColumns).mapM
      (solver.iterate.value? solver.model)
    = some (solver.model.structuralPart (solver.iterate.point solver.model))
  := by
  apply h.iterate.sized.mapM_value?_eq
  intro v hv
  rw [List.mem_range'_1] at hv
  unfold Model.nrVariables
  omega

/-- The values of the slacks, listed. -/
theorem Exact.mapM_slack (h : solver.Exact) :
  (List.range' 1 solver.model.nrRows).mapM (solver.iterate.value? solver.model)
    = some (solver.model.slackPart (solver.iterate.point solver.model))
  := by
  apply h.iterate.sized.mapM_value?_eq
  intro v hv
  rw [List.mem_range'_1] at hv
  unfold Model.nrVariables
  omega

/-- The objective is the cost of the point. -/
theorem Exact.objective_eq (h : solver.Exact) :
  solver.iterate.objective = solver.model.cost.inner
    (solver.model.structuralPart (solver.iterate.point solver.model))
  := by
  rw [Iterate.objective_eq solver.model, (Model.satisfies_of_solves h.iterate.solves).2, neg_neg]

/-- An exact solver is faithful. -/
theorem Exact.faithful (h : solver.Exact) (hdrop : solver.context.tolerances.drop = 0) :
  solver.Faithful solver.model solver.context
  where
    current := h.current
    inverse i hi := by
      have hv := h.iterate.sized.variableAt?_eq ⟨i, Nat.lt_succ_of_le hi⟩
      have hlt : solver.iterate.basis.owners[i]?.getD 0 < solver.model.nrVariables := by
        rw [← h.iterate.sized.nrVariables]
        apply Basis.lt_of_mem_owners (List.mem_of_getElem? hv)
      obtain ⟨column, hcolumn, hlength, hentries⟩ := solver.model.denseColumn?_eq hlt
      obtain ⟨unit, hunit, hsolved⟩ := h.iterate.inverse.ftran?_column hdrop
        (i := ⟨i, Nat.lt_succ_of_le hi⟩) hlength hentries
      exact ⟨_, column, unit, hv, hcolumn, hunit, hsolved⟩
    values := ⟨_, _, h.mapM_structural, h.mapM_slack,
      (Model.satisfies_of_solves h.iterate.solves).1, h.objective_eq⟩

theorem Keeps.faithful (h : solver.Keeps model settings context rule) (hexact : solver.Exact)
    (hdrop : context.tolerances.drop = 0) :
  solver.Faithful model context
  := by
  have hsolver := hexact.faithful (by rw [h.context]; apply hdrop)
  rw [h.model, h.context] at hsolver
  apply hsolver

variable {status : Status} {result : SolveResult F}

/-- The result of an exact solver lists the values of its point. -/
theorem Exact.result?_spec (h : solver.Exact) (hresult : solver.result? status = some result) :
  result.structural = solver.model.structuralPart (solver.iterate.point solver.model)
    ∧ result.slack = solver.model.slackPart (solver.iterate.point solver.model)
    ∧ result.objective = solver.model.ownCost.inner result.structural
  := by
  unfold result? at hresult
  dsimp only at hresult
  rw [h.mapM_structural, h.mapM_slack, Option.bind_eq_bind, Option.bind_some,
    Option.bind_eq_bind, Option.bind_some] at hresult
  obtain ⟨feasible, -, hresult⟩ := Option.bind_eq_some_iff.mp hresult
  cases hresult
  refine ⟨rfl, rfl, ?_⟩
  dsimp only
  rw [Model.ownCost_inner]
  unfold objective
  cases solver.model.goal with
  | minimize => apply h.objective_eq
  | maximize =>
      dsimp only
      rw [h.objective_eq]

/-- The result of an exact solver satisfies the equations, with its objective as the cost. -/
theorem Keeps.satisfies_of_result? (h : solver.Keeps model settings context rule)
    (hexact : solver.Exact) (hresult : solver.result? status = some result) :
  model.Satisfies result.structural result.slack
    ∧ result.slack
      = List.zipWith (· - ·) model.rightHandSide (model.matrix.product result.structural)
    ∧ result.objective = model.ownCost.inner result.structural
  := by
  obtain ⟨hstructural, hslack, hobjective⟩ := hexact.result?_spec hresult
  have hsatisfies := (Model.satisfies_of_solves hexact.iterate.solves).1
  rw [← hstructural, ← hslack, h.model] at hsatisfies
  rw [h.model] at hobjective
  exact ⟨hsatisfies, hsatisfies.slack_eq, hobjective⟩

/-! ### Reached solvers -/

/-- In exact numbers every reached solver is faithful to its model whenever a step begins and after
every turn.  The result of every solve satisfies the equations, with its objective as the cost of
its structural values.  While the iterate is current, as it is from the first step until another
basis is set, a factorization from scratch without singular columns keeps the value of every
variable, and so does the preparation of a step. -/
theorem Reached.faithful_throughout (hcontext : Context.ofSettings settings = .ok context)
    (htolerances : context.tolerances.Exact) (hrule : rule = .dantzig ∨ rule = .first)
    (h : Reached model settings rule solver) :
  (∀ reading, ∃ prepared, solver.prepare? reading = some prepared
      ∧ prepared.state.Faithful model context)
    ∧ (∀ reading recovering turn, solver.turn? reading recovering = some turn →
      turn.solver.Faithful model context)
    ∧ (∀ readings patience outcome result, solver.solve? readings patience = some outcome →
      outcome.result = .solved result →
        model.Satisfies result.structural result.slack
          ∧ result.slack
            = List.zipWith (· - ·) model.rightHandSide (model.matrix.product result.structural)
          ∧ result.objective = model.ownCost.inner result.structural)
    ∧ (solver.iterate.current = true → ∃ outcome, solver.rebuild? = some outcome
      ∧ (outcome.result.singular = [] → ∀ v < model.nrVariables,
        outcome.state.iterate.value? model v = solver.iterate.value? model v))
    ∧ (solver.iterate.current = true →
      ∀ reading prepared, solver.prepare? reading = some prepared →
        (∀ factorization, prepared.result = some factorization → factorization.singular = []) →
        ∀ v < model.nrVariables,
          prepared.state.iterate.value? model v = solver.iterate.value? model v)
  := by
  have hkeeps := h.keeps hcontext htolerances hrule
  have hexact := hkeeps.exactSolve hcontext htolerances
  refine ⟨?_, ?_, ?_, ?_, ?_⟩
  · intro reading
    obtain ⟨prepared, hprepared, hadvances⟩ := hkeeps.consistent.prepare?_eq hexact reading
    refine ⟨prepared, hprepared, ?_⟩
    apply (hkeeps.advances hadvances).faithful hadvances.exact htolerances.drop
  · intro reading recovering turn hturn
    have hadvances := (hkeeps.consistent.turn? hexact (hkeeps.complete hrule) hturn).1
    apply (hkeeps.advances hadvances).faithful hadvances.exact htolerances.drop
  · intro readings patience outcome result hsolve hresult
    obtain ⟨hafter, hlast, hread, -, -⟩ :=
      h.solve?_spec hcontext htolerances hrule hsolve hresult
    apply hafter.satisfies_of_result? hlast hread
  · intro hcurrent
    obtain ⟨outcome, houtcome, hvalues⟩ :=
      (hkeeps.consistent.exact hcurrent).value?_of_rebuild? hexact
    rw [hkeeps.model] at hvalues
    exact ⟨outcome, houtcome, hvalues⟩
  · intro hcurrent reading prepared hprepared hsingular v hv
    have hvalue := (hkeeps.consistent.exact hcurrent).value?_of_prepare? hexact hprepared
      hsingular (v := v)
    rw [hkeeps.model] at hvalue
    apply hvalue hv

/-- The sample model is solved in two pivots, and faithfully. -/
theorem Reached.faithful_throughout_sample :
  Context.ofSettings .sample = .ok (Context.convert .sample : Context ℚ)
    ∧ (Context.convert .sample : Context ℚ).tolerances.Exact
    ∧ Reached Model.sample .sample .dantzig (sample .sample)
    ∧ ∃ outcome result, (sample .sample).solve? (fun _ => {}) 5 = some outcome
      ∧ outcome.result = .solved result ∧ Model.sample.Satisfies result.structural result.slack
      ∧ result.objective = Model.sample.ownCost.inner result.structural
  := by
  have hfaithful := Reached.faithful_throughout Context.ofSettings_sample Context.convert_sample_exact
    (Or.inl rfl) (sample_reached .sample)
  have hstatus : (((sample .sample).solve? (fun _ => {}) 5).bind fun outcome =>
      outcome.result.status?) = some .optimal := by
    decide +kernel
  obtain ⟨outcome, result, hsolve, hresult, -⟩ := exists_solved hstatus
  obtain ⟨hsatisfies, -, hobjective⟩ := hfaithful.2.2.1 _ _ _ _ hsolve hresult
  exact ⟨Context.ofSettings_sample, Context.convert_sample_exact, sample_reached .sample,
    outcome, result, hsolve, hresult, hsatisfies, hobjective⟩

end Solver

end RevisedSimplex
