import RevisedSimplex.Proofs.IterationBounds
import RevisedSimplex.Proofs.IterationLimits

/-!
# Interrupted solves

A solve that the limit on the number of iterations has interrupted is taken up again by the next
one.  Everything that a turn looks at is held by the solver, but for the clocks, the signal to stop
and the flag of a recovery.  These do not matter without a watch on the time, while the signal is
not raised, and without refused pivots.  So the turns of the interrupted solves, one after the
other, are those of a single solve without a limit, and the results are the same.
-/

namespace RevisedSimplex

namespace Solver

/-! ### Solving again and again -/

section Calls

variable {R F : Type} [Scalar F] [BasisFactorization R F]

/-- Solves again and again, until a solve ends otherwise than by the limit on the number of
iterations, at most `calls` times.  Call `k` sees the readings `readings k`. -/
def solveRepeatedly? (readings : ℕ → ℕ → Reading) (patience : ℕ) : (calls : ℕ) → (k : ℕ) →
    Solver R F → Option (Outcome (Solver R F) (SolveEnd F))
  | 0, _, solver => some { result := .unfinished, state := solver }
  | calls + 1, k, solver => do
      let outcome ← solver.solve? (readings k) patience
      match outcome.result with
      | .solved result =>
          if result.status = .iterationLimit then do
            let later ← solveRepeatedly? readings patience calls (k + 1) outcome.state
            some { later with events := outcome.events ++ later.events }
          else some outcome
      | _ => some outcome

end Calls

/-! ### Unlimited solvers -/

section Unlimited

variable {R F : Type} [Scalar F]

/-- Neither the iterations nor the time are limited. -/
structure Unlimited (solver : Solver R F) : Prop where
  iterations : solver.settings.iterationLimit = none
  time : solver.settings.timeLimit = none

variable {solver : Solver R F} {reading : Reading} {limit : ℕ}

theorem Unlimited.interruption?_eq (h : solver.Unlimited)
    (hquiet : reading.stops solver.settings = false) :
  solver.interruption? reading = none
  := by
  unfold interruption?
  rw [hquiet, h.iterations, h.time]
  rfl

/-- A limit on the number of iterations interrupts once it is reached. -/
theorem Unlimited.interruption?_withLimit (h : solver.Unlimited)
    (hquiet : reading.stops solver.settings = false) :
  (solver.withLimit (some limit)).interruption? reading
    = if limit ≤ solver.iterate.nrIterations then some .iterationLimit else none
  := by
  unfold interruption?
  change (if reading.stops solver.settings then _
    else if solver.settings.timeLimit.any _ then _
    else if decide (limit ≤ solver.iterate.nrIterations) then _ else _) = _
  rw [hquiet, h.time]
  simp only [decide_eq_true_eq]
  rfl

end Unlimited

variable {F : Type} [Scalar F] {solver after : Solver (ProductForm F) F} {reading : Reading}
  {readings : ℕ → Reading} {turn : Turn (ProductForm F) F} {limit : ℕ}

/-! ### The signal to stop -/

theorem interruption?_eq_userAbort_iff :
  solver.interruption? reading = some .userAbort ↔ reading.stops solver.settings = true
  := by
  unfold interruption?
  constructor
  · intro h
    split at h
    · assumption
    · split at h
      · cases h
      · split at h <;> cases h
  · intro h
    rw [if_pos h]

/-- A turn ends the solve for the signal if it has an iteration and the signal is raised then. -/
theorem Shaped.turn?_userAbort_iff (h : solver.Shaped) {recovering : Bool}
    (hturn : solver.turn? reading recovering = some turn) :
  turn.verdict = .conclude .userAbort
    ↔ turn.iterates = true ∧ reading.stops solver.settings = true
  := by
  have hsettings := (h.turn? hturn).1.settings_eq
  obtain ⟨prepared, hprepared, -, hcases⟩ := turn?_cases hturn
  have hshaped := (h.prepare? hprepared).1.shaped
  unfold Turn.iterates Turn.kind?
  rw [← hsettings]
  rcases hcases with ⟨-, hnone, hverdict, -⟩ | ⟨outcome, hstep, htaken, hcases⟩
  · rw [hnone, hverdict]
    simp
  · rw [htaken]
    rcases hcases with ⟨result, hresult, hverdict, hsolver⟩
      | ⟨row, index, value, hresult, hverdict, -⟩ | ⟨e, hresult, -, hverdict, -⟩
    · rw [hresult, hverdict, hsolver, ← interruption?_eq_userAbort_iff]
      cases result with
      | done status =>
          obtain ⟨-, -, -, hstatus⟩ := hshaped.loads_of_step? hstep hresult
          rcases hstatus with rfl | rfl | rfl <;> simp [verdictAfter, iterated?]
      | iterated kind =>
          unfold verdictAfter
          cases outcome.state.interruption? reading <;> simp [iterated?]
    · rw [hresult, hverdict]
      cases recovering <;> simp [iterated?]
    · rw [hresult, hverdict]
      simp [iterated?]

/-- A solve heeds the signal at its next iteration.  An iteration during which the signal is raised
is the last one, and ends the solve before any limit does; no other turn ends it for the signal. -/
theorem Shaped.run?_userAbort_iff (h : solver.Shaped) {budget i : ℕ} {recovering : Bool}
    {before later : List (Turn (ProductForm F) F)}
    (hrun : run? readings budget i recovering solver = some (before ++ turn :: later)) :
  (turn.verdict = .conclude .userAbort
      ↔ turn.iterates = true ∧ (readings (i + before.length)).stops solver.settings = true)
    ∧ (turn.verdict = .conclude .userAbort → later = [])
  := by
  obtain ⟨_, flag, start, hstart, hrun⟩ := h.exists_run?_append hrun
  obtain ⟨_, -, hturn, hcases⟩ := run?_cons hrun
  rw [← hstart.settings_eq]
  refine ⟨hstart.shaped.turn?_userAbort_iff hturn, ?_⟩
  intro hverdict
  rcases hcases with ⟨_, hagain, -⟩ | ⟨-, hnil⟩
  · rw [hverdict] at hagain
    cases hagain
  · exact hnil

/-- The model with thirds takes two iterations, of which the first one is the last when the signal
is raised during it. -/
example :
  (run? (fun i => { signal := some (i == 0) }) 5 0 false stoppable).map
      (List.map Turn.iterates) = some [true]
    ∧ (run? (fun _ => {}) 5 0 false stoppable).map
      (List.map Turn.iterates) = some [true, true, false]
  := by
  decide +kernel

/-! ### Turns under a limit -/

theorem Unlimited.follows (h : solver.Unlimited) (hfollows : solver.Follows after) :
  after.Unlimited
  := by
  constructor
  case iterations => rw [hfollows.settings_eq, h.iterations]
  case time => rw [hfollows.settings_eq, h.time]

/-- Without refused pivots, an unlimited solve goes on after an iteration and after nothing else.
What ends it does so under any limit. -/
theorem Unlimited.verdict_cases (h : solver.Unlimited) (hshaped : solver.Shaped)
    (hquiet : reading.stops solver.settings = false)
    (hturn : solver.turn? reading false = some turn)
    (hfailures : turn.solver.counters.numericFailures = solver.counters.numericFailures) :
  (∃ e, turn.verdict = .fail e)
    ∨ (∃ status, turn.verdict = .conclude status ∧ status ≠ .iterationLimit
      ∧ ∀ limit reading, (turn.withLimit limit reading false).verdict = .conclude status)
    ∨ ∃ kind, turn.verdict = .again false ∧ turn.step = some (.ok (.iterated kind))
      ∧ turn.solver.iterate.nrIterations = solver.iterate.nrIterations + 1
  := by
  have hafter := (hshaped.turn? hturn).1
  have hunlimited := h.follows hafter
  rw [← hafter.settings_eq] at hquiet
  obtain ⟨prepared, hprepared, -, hcases⟩ := turn?_cases hturn
  obtain ⟨hfollows, hprior, hcount, -⟩ := hshaped.prepare? hprepared
  rcases hcases with ⟨-, hnone, hverdict, -⟩ | ⟨outcome, hstep, htaken, hcases⟩
  · refine Or.inr (Or.inl ⟨_, hverdict, by decide, ?_⟩)
    intro limit reading
    unfold Turn.withLimit
    rw [hnone]
    apply hverdict
  · rcases hcases with ⟨result, hresult, hverdict, hsolver⟩
      | ⟨row, index, value, hresult, -, hsolver⟩ | ⟨e, -, -, hverdict, -⟩
    · rw [hsolver] at hunlimited hquiet
      rcases hfollows.shaped.step?_cases hstep with ⟨loaded, status, -, rfl, hstatus⟩ | hpivots
      · cases hresult
        refine Or.inr (Or.inl ⟨status, hverdict, ?_, ?_⟩)
        · rcases hstatus with rfl | rfl | rfl <;> decide
        · intro limit reading
          unfold Turn.withLimit
          rw [htaken]
          rfl
      · obtain ⟨-, -, ⟨kind, hkind, hmore⟩ | ⟨⟨e, he⟩, -⟩⟩ := hfollows.shaped.of_pivots hpivots
        · rw [hresult, Except.ok.injEq] at hkind
          subst hkind
          refine Or.inr (Or.inr ⟨kind, ?_, ?_, ?_⟩)
          · rw [hverdict]
            unfold verdictAfter
            rw [hunlimited.interruption?_eq hquiet]
            rfl
          · rw [htaken, hresult]
          · rw [hsolver, hmore, hcount]
        · rw [hresult] at he
          cases he
    · obtain ⟨hnext, -, hsame⟩ := hfollows.shaped.step? hstep
      obtain ⟨-, -, hrefused⟩ := hnext.shaped.refuse false
      rw [hsolver, hrefused] at hfailures
      omega
    · exact Or.inl ⟨e, hverdict⟩

/-- An iteration that reaches the limit is the last one of its solve. -/
theorem Unlimited.verdict_withLimit (h : turn.solver.Unlimited) (limit : ℕ)
    (hquiet : reading.stops turn.solver.settings = false)
    {kind : IterationKind} (hstep : turn.step = some (.ok (.iterated kind))) :
  (turn.withLimit (some limit) reading false).verdict
    = if limit ≤ turn.solver.iterate.nrIterations then .conclude .iterationLimit
      else .again false
  := by
  unfold Turn.withLimit
  rw [hstep]
  dsimp only [verdictAfter]
  rw [h.interruption?_withLimit hquiet]
  by_cases hreached : limit ≤ turn.solver.iterate.nrIterations
  · rw [if_pos hreached, if_pos hreached]
  · rw [if_neg hreached, if_neg hreached]
    rfl

/-! ### Runs under a limit -/

variable {last : Solver (ProductForm F) F} {result : SolveResult F}

/-- A solve under a limit comes to the end that it has without one, or is interrupted at a solver
from which the rest of the unlimited solve leads to this end.  By induction on the turns of the
unlimited solve. -/
theorem Unlimited.endOf?_withLimit (readings' : ℕ → Reading) :
    ∀ {budget i : ℕ} {solver : Solver (ProductForm F) F}, solver.Unlimited → solver.Shaped →
      solver.context.policy.timed = false →
      (∀ i, (readings i).stops solver.settings = false) →
      (∀ j, (readings' j).stops solver.settings = false) →
      endOf? readings budget i false solver = some (.solved result, last) →
      last.counters.numericFailures = solver.counters.numericFailures →
      ∀ (turns j : ℕ), 0 < turns → limit - solver.iterate.nrIterations ≤ turns →
      (endOf? readings' turns j false (solver.withLimit (some limit))
          = some (.solved result, last.withLimit (some limit))
        ∧ result.status ≠ .iterationLimit)
      ∨ ∃ interrupted middle budget i, solver.Follows middle
        ∧ endOf? readings' turns j false (solver.withLimit (some limit))
          = some (.solved interrupted, middle.withLimit (some limit))
        ∧ interrupted.status = .iterationLimit
        ∧ endOf? readings budget i false middle = some (.solved result, last)
        ∧ middle.counters.numericFailures = solver.counters.numericFailures
        ∧ solver.iterate.nrIterations < middle.iterate.nrIterations
  | 0, _, _, _, _, _, _, _, hend, _, _, _, _, _ => by
      cases hend
  | budget + 1, i, solver, h, hshaped, htimed, hquiet, hquiet', hend, hfailures, turns, j, hpos,
    hturns => by
      obtain ⟨turns, rfl⟩ := Nat.exists_eq_add_one.mpr hpos
      unfold endOf? at hend
      obtain ⟨turn, hturn, hend⟩ := Option.bind_eq_some_iff.mp hend
      obtain ⟨hfollows, hmore, hrefused⟩ := hshaped.turn? hturn
      have hlimited := turn?_withLimit (some limit) solver htimed (readings i) (readings' j) false
      rw [hturn, Option.map_some] at hlimited
      have hsame : turn.solver.counters.numericFailures = solver.counters.numericFailures := by
        apply le_antisymm _ hrefused
        rw [← hfailures]
        split at hend
        · apply (hfollows.shaped.endOf? hend).2.2
        · cases hend
        · obtain ⟨found, -, hend⟩ := Option.bind_eq_some_iff.mp hend
          cases hend
          apply le_rfl
      rcases h.verdict_cases hshaped (hquiet i) hturn hsame with ⟨e, hverdict⟩
        | ⟨status, hverdict, hstatus, hsettled⟩ | ⟨kind, hverdict, hstep, hcount⟩
      · rw [hverdict] at hend
        cases hend
      · rw [hverdict] at hend
        obtain ⟨found, hfound, hend⟩ := Option.bind_eq_some_iff.mp hend
        cases hend
        refine Or.inl ⟨?_, ?_⟩
        · unfold endOf?
          rw [hlimited, Option.bind_eq_bind, Option.bind_some, hsettled]
          change (turn.solver.result? status).bind _ = _
          rw [hfound]
          rfl
        · rw [(result?_spec hfound).1]
          apply hstatus
      · rw [hverdict] at hend
        have hunlimited := h.follows hfollows
        rw [← hfollows.settings_eq] at hquiet hquiet'
        have hnext := hunlimited.verdict_withLimit limit (hquiet' j) hstep
        by_cases hreached : limit ≤ turn.solver.iterate.nrIterations
        · rw [if_pos hreached] at hnext
          obtain ⟨interrupted, hinterrupted, hstatus⟩ :=
            hfollows.shaped.exists_result? .iterationLimit
          refine Or.inr ⟨interrupted, turn.solver, budget, i + 1, hfollows, ?_, hstatus, hend,
            hsame, by omega⟩
          rw [endOf?, hlimited, Option.bind_eq_bind, Option.bind_some, hnext]
          change (turn.solver.result? .iterationLimit).bind _ = _
          rw [hinterrupted]
          rfl
        · rw [if_neg hreached] at hnext
          rw [endOf?, hlimited, Option.bind_eq_bind, Option.bind_some, hnext]
          dsimp only [Turn.withLimit]
          rw [← hfollows.context_eq] at htimed
          rcases endOf?_withLimit readings' hunlimited hfollows.shaped htimed hquiet hquiet'
            hend (by rw [hfailures, hsame]) turns (j + 1) (by omega) (by omega) with hdone | hlater
          · apply Or.inl hdone
          · obtain ⟨interrupted, middle, budget, i, hmiddle, hlater, hstatus, hrest, hcounted,
              hbelow⟩ := hlater
            exact Or.inr ⟨interrupted, middle, budget, i, hfollows.trans hmiddle, hlater, hstatus,
              hrest, by rw [hcounted, hsame], by omega⟩

/-! ### Solves under a limit -/

/-- Solving again and again under a limit comes to the end of the unlimited solve.  By induction on
the number of calls, each of which makes an iteration unless it is the last. -/
theorem Unlimited.solveRepeatedly? {readings' : ℕ → ℕ → Reading} {patience : ℕ} :
    ∀ {calls k budget i : ℕ} {solver : Solver (ProductForm F) F}, solver.Unlimited →
      solver.Shaped → solver.context.policy.timed = false →
      (∀ i, (readings i).stops solver.settings = false) →
      (∀ k j, (readings' k j).stops solver.settings = false) →
      endOf? readings budget i false solver = some (.solved result, last) →
      last.counters.numericFailures = solver.counters.numericFailures →
      last.iterate.nrIterations < solver.iterate.nrIterations + calls →
      ∃ outcome, (solver.withLimit (some limit)).solveRepeatedly? readings' patience calls k
          = some outcome
        ∧ outcome.result = .solved result ∧ outcome.state = last.withLimit (some limit)
  | 0, _, _, _, _, _, hshaped, _, _, _, hend, _, hcalls => by
      have hcount := (hshaped.endOf? hend).2.1
      omega
  | calls + 1, k, budget, i, solver, h, hshaped, htimed, hquiet, hquiet', hend, hfailures,
    hcalls => by
      have hbudget : limit - solver.iterate.nrIterations
          ≤ 2 * max 1 (limit - solver.iterate.nrIterations) + 2 := by
        omega
      unfold Solver.solveRepeatedly?
      rcases h.endOf?_withLimit (readings' k) hshaped htimed hquiet (hquiet' k) hend hfailures
        ((solver.withLimit (some limit)).turnBudget patience) 0 (Nat.succ_pos _) hbudget with
        ⟨hlast, hstatus⟩ | ⟨interrupted, middle, rest, next, hfollows, hlast, hstatus, hrest,
          hsame, hbelow⟩
      · obtain ⟨outcome, houtcome, hresult, hstate⟩ := exists_solve?_of_endOf? hlast
        refine ⟨outcome, ?_, hresult, hstate⟩
        rw [houtcome, Option.bind_eq_bind, Option.bind_some, hresult]
        apply if_neg hstatus
      · obtain ⟨outcome, houtcome, hresult, hstate⟩ := exists_solve?_of_endOf? hlast
        have hcount : last.iterate.nrIterations < middle.iterate.nrIterations + calls := by
          omega
        rw [← hfollows.settings_eq] at hquiet hquiet'
        rw [← hfollows.context_eq] at htimed
        obtain ⟨later, hlater, hfound, hend⟩ := solveRepeatedly? (h.follows hfollows)
          hfollows.shaped htimed hquiet hquiet' hrest (by rw [hfailures, hsame]) hcount
        rw [houtcome, Option.bind_eq_bind, Option.bind_some, hresult]
        dsimp only
        rw [if_pos hstatus, hstate, hlater]
        exact ⟨_, rfl, hfound, hend⟩

/-- Interruptions do not show.

Suppose that, without a limit on the number of iterations, a visited solver comes to a result
without a refused pivot, there is no limit on the time and no watch on it, and the signal to stop is
not raised at any reading.  Then under any limit solving again and again comes to the same result,
with the same status, values and statistics, and to the same solver, with the same basis.  Each
interrupted solve makes an iteration, so that the number of calls is bounded. -/
theorem Visited.solveRepeatedly?_eq {model : Model F} {settings : Settings} {rule : PricingRule F}
    (h : Visited model settings rule solver) (htimed : settings.policy.timed = false)
    (htime : settings.timeLimit = none) (hquiet : ∀ i, (readings i).stops settings = false)
    {patience : ℕ} {outcome : Outcome (Solver (ProductForm F) F) (SolveEnd F)}
    (hsolve : (solver.withLimit none).solve? readings patience = some outcome)
    (hresult : outcome.result = .solved result)
    (hfailures : outcome.state.counters.numericFailures = solver.counters.numericFailures)
    (limit : ℕ) {readings' : ℕ → ℕ → Reading}
    (hquiet' : ∀ k i, (readings' k i).stops settings = false) (patience' : ℕ) {calls : ℕ}
    (hcalls : outcome.state.iterate.nrIterations < solver.iterate.nrIterations + calls) :
  ∃ resumed, (solver.withLimit (some limit)).solveRepeatedly? readings' patience' calls 0
      = some resumed
    ∧ resumed.result = .solved result ∧ resumed.state = outcome.state.withLimit (some limit)
  := by
  have hmade := h.madeOf
  have hunlimited : (solver.withLimit none).Unlimited := by
    constructor
    case iterations => rfl
    case time =>
      change solver.settings.timeLimit = none
      rw [hmade.settings]
      apply htime
  have hshaped : (solver.withLimit none).Shaped :=
    ⟨hmade.shaped.sized, hmade.shaped.nrRows, hmade.shaped.form⟩
  have htimed' : (solver.withLimit none).context.policy.timed = false := by
    change solver.context.policy.timed = false
    rw [hmade.policy]
    apply htimed
  have hend := endOf?_of_solve? hsolve
  rw [hresult] at hend
  rw [← hmade.settings] at hquiet hquiet'
  apply hunlimited.solveRepeatedly? hshaped htimed' hquiet hquiet' hend hfailures hcalls

/-- With one iteration to a solve, the model with thirds takes three of them. -/
theorem Visited.solveRepeatedly?_eq_thirds :
  Visited .thirds .stoppable .dantzig stoppable
    ∧ Settings.stoppable.policy.timed = false ∧ Settings.stoppable.timeLimit = none
    ∧ Reading.stops {} .stoppable = false
    ∧ ∃ outcome result, (stoppable.withLimit none).solve? (fun _ => {}) 5 = some outcome
      ∧ outcome.result = .solved result ∧ result.status = .optimal
      ∧ outcome.state.counters.numericFailures = stoppable.counters.numericFailures
      ∧ outcome.state.iterate.nrIterations < stoppable.iterate.nrIterations + 3
      ∧ ∃ resumed, (stoppable.withLimit (some 1)).solveRepeatedly? (fun _ _ => {}) 0 3 0
          = some resumed
        ∧ resumed.result = .solved result ∧ resumed.state = outcome.state.withLimit (some 1)
  := by
  have hstatus : (((stoppable.withLimit none).solve? (fun _ => {}) 5).bind fun outcome =>
      outcome.result.status?) = some .optimal := by
    decide +kernel
  have hcounts : (((stoppable.withLimit none).solve? (fun _ => {}) 5).map fun outcome =>
      (outcome.state.counters.numericFailures, outcome.state.iterate.nrIterations))
        = some (0, 2) := by
    decide +kernel
  obtain ⟨outcome, result, hsolve, hresult, hoptimal⟩ := exists_solved hstatus
  rw [hsolve, Option.map_some, Option.some_inj, Prod.mk_inj] at hcounts
  have hcalls : outcome.state.iterate.nrIterations < stoppable.iterate.nrIterations + 3 := by
    rw [hcounts.2]
    decide
  exact ⟨stoppable_visited, rfl, rfl, rfl, outcome, result, hsolve, hresult, hoptimal, hcounts.1,
    hcalls, stoppable_visited.solveRepeatedly?_eq rfl rfl (fun _ => rfl) hsolve hresult hcounts.1 1
      (fun _ _ => rfl) 0 hcalls⟩

end Solver

end RevisedSimplex
