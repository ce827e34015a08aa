import RevisedSimplex.Proofs.SolverHistories

/-!
# Solving again

When a solve has found the status of its model, another solve finds it in its first turn.  The
step that found it changed nothing but the pivot column, and no step depends on what the pivot
column was before; and without a watch on the time a factorization that was not due before that
step, or was just made, is not due after it.
-/

namespace RevisedSimplex

namespace Solver

variable {F : Type} [Scalar F] {solver loaded : Solver (ProductForm F) F}

/-! ### Steps after a load -/

/-- The column that was loaded before does not matter for loading another one. -/
theorem Loads.loadColumn?_eq (h : solver.Loads loaded) (entering : ℕ) :
  loaded.iterate.loadColumn? loaded.context loaded.model loaded.factorization entering
    = solver.iterate.loadColumn? solver.context solver.model solver.factorization entering
  := by
  obtain ⟨pivotColumn, hlength, rfl⟩ := h
  unfold Iterate.loadColumn?
  dsimp only
  rw [hlength]

theorem Loads.consider?_eq (h : solver.Loads loaded) (candidate : Candidate F) :
  loaded.consider? candidate = solver.consider? candidate
  := by
  unfold consider?
  rw [h.loadColumn?_eq]
  obtain ⟨_, -, rfl⟩ := h
  rfl

theorem Loads.avoidDegeneracy?_eq (h : solver.Loads loaded) (candidates : List (Candidate F))
    (place : ℕ) :
  loaded.avoidDegeneracy? candidates place = solver.avoidDegeneracy? candidates place
  := by
  have hsettings : loaded.settings = solver.settings := by
    obtain ⟨_, -, rfl⟩ := h
    rfl
  unfold avoidDegeneracy?
  simp only [h.consider?_eq, hsettings]

theorem Loads.repair?_eq (h : solver.Loads loaded) (row : BasicRow F) (entering : Eligible F) :
  loaded.repair? row entering = solver.repair? row entering
  := by
  unfold repair?
  rw [h.loadColumn?_eq]
  obtain ⟨_, -, rfl⟩ := h
  rfl

variable {outcome : Outcome (Solver (ProductForm F) F) (Except Error StepResult)}

/-- A step taken after a column was loaded is the same, or concludes the same. -/
def TakesSame (solver loaded : Solver (ProductForm F) F)
    (outcome : Outcome (Solver (ProductForm F) F) (Except Error StepResult))
    (later : Option (Outcome (Solver (ProductForm F) F) (Except Error StepResult))) : Prop :=
  later = some outcome
    ∨ ∃ status, outcome = solver.conclude status ∧ later = some (loaded.conclude status)

/-- Two chains of operations that begin with the same one. -/
theorem bind_elim {α β : Type} {x : Option α} {f g : α → Option β} {P : Option β → Prop} {b : β}
    (h : ∀ a, f a = some b → P (g a)) (hf : x.bind f = some b) :
  P (x.bind g)
  := by
  cases x with
  | none => cases hf
  | some a => apply h a hf

theorem Loads.primalStep? (h : solver.Loads loaded) (hstep : solver.primalStep? = some outcome) :
  solver.TakesSame loaded outcome loaded.primalStep?
  := by
  have havoid := h.avoidDegeneracy?_eq
  obtain ⟨pivotColumn, hlength, rfl⟩ := h
  revert hstep
  unfold Solver.primalStep?
  apply bind_elim
  intro unit
  apply bind_elim
  intro multipliers
  apply bind_elim
  intro movable
  apply bind_elim
  intro candidates hstep
  dsimp only
  cases hselect : solver.pricing.selectEntering candidates with
  | none =>
      rw [hselect] at hstep
      cases hstep
      exact Or.inr ⟨_, rfl, rfl⟩
  | some place =>
      rw [hselect] at hstep
      dsimp only
      rw [havoid]
      apply Or.inl hstep

theorem Loads.dualStep? (h : solver.Loads loaded) (hstep : solver.dualStep? = some outcome) :
  solver.TakesSame loaded outcome loaded.dualStep?
  := by
  have hprimal : solver.primalStep? = some outcome →
      solver.TakesSame loaded outcome loaded.primalStep? := h.primalStep?
  have hrepair := h.repair?_eq
  obtain ⟨pivotColumn, hlength, rfl⟩ := h
  revert hstep
  unfold Solver.dualStep?
  apply bind_elim
  intro violations hstep
  dsimp only at hstep ⊢
  cases hselect : solver.pricing.selectLeaving violations with
  | none =>
      rw [hselect] at hstep
      apply hprimal hstep
  | some place =>
      rw [hselect] at hstep
      revert hstep
      apply bind_elim
      rintro ⟨position, _⟩
      apply bind_elim
      intro row
      apply bind_elim
      intro first
      apply bind_elim
      intro second
      apply bind_elim
      rintro ⟨multipliers, pivotRow⟩
      apply bind_elim
      intro movable
      apply bind_elim
      intro entries hstep
      cases htest : dualRatioTest? solver.context.tolerances
          (row.bounds.lower.any fun l => row.value < l) entries with
      | none =>
          rw [htest] at hstep
          cases hstep
          exact Or.inr ⟨_, rfl, rfl⟩
      | some entering =>
          rw [htest] at hstep
          dsimp only
          rw [hrepair]
          apply Or.inl hstep

/-- A step after a load. -/
theorem Loads.step? (h : solver.Loads loaded) (hstep : solver.step? = some outcome) :
  solver.TakesSame loaded outcome loaded.step?
  := by
  have hprimal : solver.primalStep? = some outcome →
      solver.TakesSame loaded outcome loaded.primalStep? := h.primalStep?
  have hdual : solver.dualStep? = some outcome →
      solver.TakesSame loaded outcome loaded.dualStep? := h.dualStep?
  obtain ⟨pivotColumn, hlength, rfl⟩ := h
  revert hstep
  unfold Solver.step?
  apply bind_elim
  intro feasible hstep
  cases feasible with
  | true => apply hprimal hstep
  | false => apply hdual hstep

/-- A step that has found the status of the model finds it again, and changes nothing. -/
theorem Shaped.step?_again (h : solver.Shaped) (hstep : solver.step? = some outcome)
    {status : Status} (hresult : outcome.result = .ok (.done status)) :
  outcome.state.step? = some (outcome.state.conclude status)
  := by
  obtain ⟨loaded, hloads, rfl, -⟩ := h.loads_of_step? hstep hresult
  change loaded.step? = some (loaded.conclude status)
  rcases hloads.step? hstep with hsame | ⟨other, heq, hsame⟩
  · apply hsame
  · rw [hsame]
    cases heq
    rfl

/-! ### Factorizations that are not due -/

/-- Nothing has to be prepared for a step of a settled solver. -/
theorem Settled.prepare?_eq (h : solver.Settled) (htimed : solver.context.policy.timed = false)
    (reading : Reading) :
  solver.prepare? reading = some { result := none, state := solver }
  := by
  have hdue : BasisFactorization.mustRefactorize solver.context reading.sinceFactorization
      solver.factorization = (false, solver.factorization) := by
    have hnot := not_le.mpr h.pivots
    change solver.factorization.mustRefactorize solver.context reading.sinceFactorization = _
    rw [ProductForm.mustRefactorize_eq htimed, h.forced, Bool.false_or, decide_eq_false hnot]
  unfold prepare? factorizationDue
  rw [if_pos h.current, hdue]

/-! ### Solves -/

/-- A solver that has found the status of its model needs one turn to find it again. -/
theorem Settled.turn?_eq (h : solver.Settled) (htimed : solver.context.policy.timed = false)
    {status : Status} (hstep : solver.step? = some (solver.conclude status)) (reading : Reading)
    (recovering : Bool) :
  ∃ turn, solver.turn? reading recovering = some turn ∧ turn.verdict = .conclude status
    ∧ turn.solver = solver
  := by
  unfold turn?
  rw [h.prepare?_eq htimed, Option.bind_eq_bind, Option.bind_some]
  unfold stepTurn?
  dsimp only
  rw [hstep]
  exact ⟨_, rfl, rfl, rfl⟩

/-- A turn that finds the status of the model leaves a settled solver that finds it again. -/
theorem Shaped.settled_of_turn? (h : solver.Shaped)
    (hcap : 0 < solver.context.policy.pivotCap)
    (hpolicy : solver.settings.singularPolicy = .repair) {reading : Reading} {recovering : Bool}
    {turn : Turn (ProductForm F) F} (hturn : solver.turn? reading recovering = some turn)
    {status : Status} (hverdict : turn.verdict = .conclude status)
    (hstatus : status = .optimal ∨ status = .unbounded ∨ status = .infeasible) :
  turn.solver.Settled ∧ turn.solver.step? = some (turn.solver.conclude status)
  := by
  obtain ⟨prepared, hprepared, hcases⟩ := found_of_turn? hturn hverdict hstatus
  have hsettled := h.prepare?_settled hcap hprepared
  obtain ⟨hfollows, -⟩ := h.prepare? hprepared
  rcases hcases with ⟨hfail, -⟩ | ⟨outcome, hstep, hresult, hsolver⟩
  · obtain ⟨_, _, _, hstate, -⟩ := hfollows
    rw [hstate, hpolicy] at hfail
    cases hfail
  · rw [hsolver]
    refine ⟨?_, hfollows.shaped.step?_again hstep hresult⟩
    obtain ⟨loaded, hloads, rfl, -⟩ := hfollows.shaped.loads_of_step? hstep hresult
    obtain ⟨_, -, rfl⟩ := hloads
    exact ⟨hsettled.current, hsettled.forced, hsettled.pivots⟩

/-- Solving again changes nothing.

When a solve of a visited solver has come to a status of the model, singular columns are repaired
and no watch is kept on the time, another solve has the same result, with the same values and
statistics, and leaves the solver as it is: it iterates and factorizes no more. -/
theorem Visited.solve?_again {model : Model F} {settings : Settings} {rule : PricingRule F}
    (h : Visited model settings rule solver) (htimed : settings.policy.timed = false)
    (hpolicy : settings.singularPolicy = .repair) {readings : ℕ → Reading} {patience : ℕ}
    {outcome : Outcome (Solver (ProductForm F) F) (SolveEnd F)} {result : SolveResult F}
    (hsolve : solver.solve? readings patience = some outcome)
    (hresult : outcome.result = .solved result)
    (hstatus : result.status = .optimal ∨ result.status = .unbounded
      ∨ result.status = .infeasible)
    (readings' : ℕ → Reading) {patience' : ℕ} (hpatience : 0 < patience') :
  ∃ again, outcome.state.solve? readings' patience' = some again
    ∧ again.result = .solved result ∧ again.state = outcome.state
  := by
  have hmade := h.madeOf
  have hend := endOf?_of_solve? hsolve
  rw [hresult] at hend
  obtain ⟨before, reading, flag, turn, hbefore, hturn, hverdict, hlast, hread⟩ :=
    hmade.shaped.exists_turn hend
  have hmade := hmade.follows hbefore
  have hpolicy' : before.settings.singularPolicy = .repair := by
    rw [hmade.settings]
    apply hpolicy
  obtain ⟨hsettled, hstep⟩ := hmade.shaped.settled_of_turn? hmade.pivotCap_pos hpolicy' hturn
    hverdict hstatus
  have hmade := hmade.follows (hmade.shaped.turn? hturn).1
  rw [hlast] at hsettled hstep hmade
  have htimed' : outcome.state.context.policy.timed = false := by
    rw [hmade.policy]
    apply htimed
  obtain ⟨again, hagain, hconclude, hsame⟩ := hsettled.turn?_eq htimed' hstep (readings' 0) false
  rw [← hsame] at hread
  obtain ⟨found, hfound, hsolved, hstate⟩ :=
    exists_solve?_of_turn? hagain hconclude hread hpatience
  exact ⟨found, hfound, hsolved, hstate.trans hsame⟩

/-- Once solved, the model with thirds is solved again in a single turn. -/
theorem Visited.solve?_again_thirds :
  Visited .thirds .untimed .dantzig thirds
    ∧ Settings.untimed.policy.timed = false ∧ Settings.untimed.singularPolicy = .repair
    ∧ ∃ outcome result, thirds.solve? (fun _ => {}) 5 = some outcome
      ∧ outcome.result = .solved result ∧ result.status = .optimal
      ∧ ∃ again, outcome.state.solve? (fun _ => {}) 1 = some again
        ∧ again.result = .solved result ∧ again.state = outcome.state
  := by
  have hstatus : ((thirds.solve? (fun _ => {}) 5).bind fun outcome =>
      outcome.result.status?) = some .optimal := by
    decide +kernel
  obtain ⟨outcome, result, hsolve, hresult, hoptimal⟩ := exists_solved hstatus
  exact ⟨thirds_visited, rfl, rfl, outcome, result, hsolve, hresult, hoptimal,
    thirds_visited.solve?_again rfl rfl hsolve hresult (Or.inl hoptimal) (fun _ => {})
      Nat.one_pos⟩

end Solver

end RevisedSimplex
