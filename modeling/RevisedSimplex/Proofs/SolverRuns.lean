import RevisedSimplex.Proofs.SolverHistories
import RevisedSimplex.Proofs.SolverTurns

/-!
# Runs of a solver in exact numbers

A solver is `Reached` when it comes from a new one by setting bases and by turns of solves.  All
reached solvers are consistent, by induction over the ways to reach them.  Hence at every step
the product form inverts the basis, the values of all variables satisfy the equations, and the
objective is the cost of these values; the results of all solves inherit this.
-/

open Matrix

namespace RevisedSimplex

/-! ### Settings -/

/-- Tolerances with which nothing is rounded and no pivot is zero. -/
structure Tolerances.Exact {F : Type} [ExactScalar F] (tolerances : Tolerances F) : Prop where
  primal : tolerances.primal = 0
  drop : tolerances.drop = 0
  pivot : 0 < tolerances.pivot
  factorizationPivot : 0 < tolerances.factorizationPivot

/-- The row selection of accepted settings has a positive threshold. -/
theorem Context.rowSelection_positive {F : Type} [ExactScalar F] {settings : Settings}
    {context : Context F} (h : Context.ofSettings settings = .ok context) :
  context.rowSelection.Positive
  := by
  obtain ⟨hrange, rfl⟩ := Context.inRange_of_ofSettings h
  change (settings.rowSelection.map Scalar.ofFloat : RowSelection F).Positive
  cases hrule : settings.rowSelection with
  | largestMagnitude => trivial
  | markowitz threshold =>
      apply ExactScalar.ofFloat_pos threshold (hrange.rowSelection threshold hrule).1

/-- Accepted settings with exact tolerances are free of rounding. -/
theorem Context.exactSolve_of_ofSettings {F : Type} [ExactScalar F] {settings : Settings}
    {context : Context F} (h : Context.ofSettings settings = .ok context)
    (htolerances : context.tolerances.Exact) :
  context.ExactSolve
  where
    drop := htolerances.drop
    factorizationPivot := htolerances.factorizationPivot
    rowSelection := rowSelection_positive h
    primal := htolerances.primal
    pivot := htolerances.pivot

/-- Settings without rounding, and without a tolerance where none is needed. -/
def Settings.sample : Settings where
  tolerances := { primal := 0, dual := 0, ratioPivot := 0, drop := 0 }

theorem Context.ofSettings_sample :
  Context.ofSettings Settings.sample = .ok (Context.convert Settings.sample : Context ℚ)
  := by
  have hfault : (Settings.sample.fault?).isNone = true := by decide +kernel
  unfold ofSettings
  rw [Option.isNone_iff_eq_none.mp hfault]

theorem Context.convert_sample_exact :
  (Context.convert Settings.sample : Context ℚ).tolerances.Exact
  where
    primal := by decide +kernel
    drop := by decide +kernel
    pivot := by decide +kernel
    factorizationPivot := by decide +kernel

namespace Solver

variable {F : Type} [ExactScalar F] {model : Model F} {settings : Settings} {context : Context F}
  {rule : PricingRule F} {solver : Solver (ProductForm F) F}

/-! ### Reached solvers -/

/-- The solvers that come from a new one by setting bases and by turns of solves. -/
inductive Reached (model : Model F) (settings : Settings) (rule : PricingRule F) :
    Solver (ProductForm F) F → Prop
  | made {solver : Solver (ProductForm F) F} :
      withComponents model settings (ProductForm.identity model.nrRows) rule = .ok solver →
      Reached model settings rule solver
  | setBasis {solver after : Solver (ProductForm F) F} (basis : Basis) :
      Reached model settings rule solver → solver.setBasis basis = .ok after →
      Reached model settings rule after
  | turn {solver : Solver (ProductForm F) F} {turn : Turn (ProductForm F) F}
      (reading : Reading) (recovering : Bool) :
      Reached model settings rule solver → solver.turn? reading recovering = some turn →
      Reached model settings rule turn.solver

/-- A new solver with the sample settings and Dantzig pricing. -/
def sample (model : Model ℚ) : Solver (ProductForm ℚ) ℚ :=
  start model .sample (.convert .sample) (ProductForm.identity model.nrRows) .dantzig

theorem sample_made (model : Model ℚ) :
  withComponents model .sample (ProductForm.identity model.nrRows) .dantzig = .ok (sample model)
  := by
  unfold withComponents
  rw [Context.ofSettings_sample]
  rfl

theorem sample_reached (model : Model ℚ) :
  Reached model .sample .dantzig (sample model)
  := .made (sample_made model)

/-- A consistent solver with the given parts that never change. -/
structure Keeps (model : Model F) (settings : Settings) (context : Context F)
    (rule : PricingRule F) (solver : Solver (ProductForm F) F) : Prop where
  model : solver.model = model
  settings : solver.settings = settings
  context : solver.context = context
  pricing : solver.pricing = rule
  consistent : solver.Consistent

/-- A new solver starts from the basis of all slacks, and has not been factorized. -/
theorem keeps_of_withComponents (hcontext : Context.ofSettings settings = .ok context)
    (h : withComponents model settings (ProductForm.identity model.nrRows) rule = .ok solver) :
  solver.Keeps model settings context rule
  := by
  obtain ⟨other, hother, rfl⟩ := withComponents_eq_ok h
  rw [hcontext] at hother
  cases hother
  refine ⟨rfl, rfl, rfl, rfl, Iterate.sized_start model, rfl, ?_⟩
  intro hcurrent
  cases hcurrent

/-- An accepted basis has the size of the model, and makes the iterate stale. -/
theorem Keeps.setBasis (h : solver.Keeps model settings context rule) {basis : Basis}
    {after : Solver (ProductForm F) F} (hset : solver.setBasis basis = .ok after) :
  after.Keeps model settings context rule
  := by
  obtain ⟨hrows, hvariables, rfl⟩ := setBasis_eq_ok hset
  have hsized := h.consistent.sized
  exact ⟨h.model, h.settings, h.context, h.pricing,
    ⟨hrows, hvariables, hsized.values, hsized.pivotColumn⟩, h.consistent.nrRows,
    fun hcurrent => by cases hcurrent⟩

/-- What a solver advances to keeps what it keeps. -/
theorem Keeps.advances (h : solver.Keeps model settings context rule)
    {after : Solver (ProductForm F) F} (hadvances : solver.Advances after) :
  after.Keeps model settings context rule
  := by
  have hexact := hadvances.exact
  obtain ⟨iterate, factorization, counters, rfl, -⟩ := hadvances
  exact ⟨h.model, h.settings, h.context, h.pricing, hexact.consistent⟩

/-- The conditions on settings and rule hold for a solver that keeps them. -/
theorem Keeps.exactSolve (h : solver.Keeps model settings context rule)
    (hcontext : Context.ofSettings settings = .ok context)
    (htolerances : context.tolerances.Exact) :
  solver.context.ExactSolve
  := by
  rw [h.context]
  apply Context.exactSolve_of_ofSettings hcontext htolerances

theorem Keeps.complete (h : solver.Keeps model settings context rule)
    (hrule : rule = .dantzig ∨ rule = .first) :
  solver.pricing.Complete
  := by
  rw [h.pricing]
  apply PricingRule.complete_of_eq hrule

/-- Every reached solver is consistent. -/
theorem Reached.keeps (hcontext : Context.ofSettings settings = .ok context)
    (htolerances : context.tolerances.Exact) (hrule : rule = .dantzig ∨ rule = .first)
    (h : Reached model settings rule solver) :
  solver.Keeps model settings context rule
  := by
  induction h with
  | made hmade => apply keeps_of_withComponents hcontext hmade
  | setBasis basis _ hset ih => apply ih.setBasis hset
  | turn reading recovering _ hturn ih =>
      apply ih.advances
      apply (ih.consistent.turn? (ih.exactSolve hcontext htolerances) (ih.complete hrule) hturn).1

/-! ### Solves -/

/-- Every turn of a run from a reached solver is made by a reached solver.  By induction on the
turns. -/
theorem Reached.mem_run? {readings : ℕ → Reading} {turn : Turn (ProductForm F) F} :
    ∀ {turns : List (Turn (ProductForm F) F)} {budget i : ℕ} {recovering : Bool}
      {solver : Solver (ProductForm F) F},
      Reached model settings rule solver →
      run? readings budget i recovering solver = some turns → turn ∈ turns →
      ∃ before reading flag, Reached model settings rule before
        ∧ before.turn? reading flag = some turn
  | [], _, _, _, _, _, _, hturn => by cases hturn
  | first :: later, _, _, _, solver, h, hrun, hturn => by
      obtain ⟨_, -, hfirst, hcases⟩ := run?_cons hrun
      rcases List.mem_cons.mp hturn with rfl | hmem
      · exact ⟨solver, _, _, h, hfirst⟩
      · rcases hcases with ⟨_, -, hlater⟩ | ⟨-, rfl⟩
        · apply Reached.mem_run? (h.turn _ _ hfirst) hlater hmem
        · cases hmem

variable {readings : ℕ → Reading} {patience : ℕ}
  {outcome : Outcome (Solver (ProductForm F) F) (SolveEnd F)} {result : SolveResult F}

/-- A solve leads to a reached solver. -/
theorem Reached.solve? (h : Reached model settings rule solver)
    (hsolve : solver.solve? readings patience = some outcome) :
  Reached model settings rule outcome.state
  := by
  obtain ⟨turns, hturns, hfinish⟩ := Option.bind_eq_some_iff.mp hsolve
  rw [state_of_finish? hfinish]
  cases hlast : turns.getLast? with
  | none => apply h
  | some last =>
      obtain ⟨before, reading, flag, hbefore, hturn⟩ :=
        h.mem_run? hturns (List.mem_of_getLast? hlast)
      apply hbefore.turn reading flag hturn

/-- The result of a solve is read off the solver after the last turn, which has concluded with its
status. -/
theorem Reached.exists_turn (h : Reached model settings rule solver)
    (hsolve : solver.solve? readings patience = some outcome)
    (hresult : outcome.result = .solved result) :
  ∃ (before : Solver (ProductForm F) F) (reading : Reading) (flag : Bool)
    (turn : Turn (ProductForm F) F), Reached model settings rule before
      ∧ before.turn? reading flag = some turn ∧ turn.verdict = .conclude result.status
      ∧ turn.solver.result? result.status = some result ∧ outcome.state = turn.solver
  := by
  obtain ⟨turns, hturns, hfinish⟩ := Option.bind_eq_some_iff.mp hsolve
  obtain ⟨last, hlast, hconclusion⟩ := exists_last_of_finish? hfinish hresult
  obtain ⟨before, reading, flag, hbefore, hturn⟩ :=
    h.mem_run? hturns (List.mem_of_getLast? hlast)
  exact ⟨before, reading, flag, last, hbefore, hturn, hconclusion⟩

/-- The solver that a result is read off is exact, and fulfils the conditions of the status. -/
theorem Reached.solve?_spec (hcontext : Context.ofSettings settings = .ok context)
    (htolerances : context.tolerances.Exact) (hrule : rule = .dantzig ∨ rule = .first)
    (h : Reached model settings rule solver)
    (hsolve : solver.solve? readings patience = some outcome)
    (hresult : outcome.result = .solved result) :
  outcome.state.Keeps model settings context rule ∧ outcome.state.Exact
    ∧ outcome.state.result? result.status = some result
    ∧ (result.status = .optimal → outcome.state.RowsContained ∧ outcome.state.PricedOut)
    ∧ (settings.singularPolicy = .repair → result.status = .infeasible → outcome.state.Stuck)
  := by
  obtain ⟨before, reading, flag, turn, hbefore, hturn, hverdict, hread, hstate⟩ :=
    h.exists_turn hsolve hresult
  have hkeeps := hbefore.keeps hcontext htolerances hrule
  obtain ⟨hadvances, hoptimal, hinfeasible⟩ := hkeeps.consistent.turn?
    (hkeeps.exactSolve hcontext htolerances) (hkeeps.complete hrule) hturn
  rw [hstate]
  refine ⟨hkeeps.advances hadvances, hadvances.exact, hread, ?_, ?_⟩
  · intro hstatus
    apply hoptimal
    rw [hverdict, hstatus]
  · intro hpolicy hstatus
    apply hinfeasible
    · rw [hkeeps.settings]
      apply hpolicy
    · rw [hverdict, hstatus]

end Solver

end RevisedSimplex
