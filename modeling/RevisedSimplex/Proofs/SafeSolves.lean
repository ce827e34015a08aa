import RevisedSimplex.Proofs.PackedNumbers
import RevisedSimplex.Proofs.SolverProgress

/-!
# Solves never fail

A solve of a guarded solver runs to its end.  Nothing that it reads is missing, so each of its turns
has a result; the only error of a step is a refused pivot, from which the solve recovers or for
which it ends with a status; and every basis on the way is consistent.  When a solve says that its
model is optimal or unbounded, the values at its end are feasible, and when it says that the model
is infeasible without having stopped for a singular column, they are not.
-/

namespace RevisedSimplex

variable {F : Type} [Scalar F]

/-! ### Feasibility -/

namespace Solver

variable {solver loaded : Solver (ProductForm F) F} {status : Status}

/-- Whether the basic variables are within their bounds. -/
def isFeasible? (solver : Solver (ProductForm F) F) : Option Bool :=
  solver.iterate.isFeasible? solver.context.tolerances solver.model

theorem Loads.isFeasible?_eq (h : solver.Loads loaded) :
  loaded.isFeasible? = solver.isFeasible?
  := by
  obtain ⟨_, -, rfl⟩ := h
  rfl

/-- The values of an optimal or unbounded model are feasible, and those of an infeasible one are
not unless a singular column has ended the solve. -/
def Agrees (solver : Solver (ProductForm F) F) (status : Status) : Prop :=
  (status = .optimal ∨ status = .unbounded → solver.isFeasible? = some true)
    ∧ (status = .infeasible → solver.settings.singularPolicy = .repair →
      solver.isFeasible? = some false)

/-- A status that goes with the feasibility of the solver. -/
theorem agrees_of_expected {feasible : Bool} (h : solver.isFeasible? = some feasible)
    (hexpected : Expected feasible status) :
  solver.Agrees status
  := by
  unfold Expected at hexpected
  cases feasible with
  | true =>
      refine ⟨fun _ => h, ?_⟩
      rintro rfl
      simp at hexpected
  | false =>
      rw [if_neg Bool.false_ne_true] at hexpected
      subst hexpected
      exact ⟨by simp, fun _ _ => h⟩

end Solver

/-! ### Turns -/

/-- A turn in which nothing goes wrong.  Its solver has a consistent basis and a file with no fewer
columns than its factorization, a step ends with no error but a refused pivot, and the solve goes
on or ends with a status that agrees with the values. -/
structure Turn.Safe (turn : Turn (ProductForm F) F) : Prop where
  consistent : turn.solver.basis.isConsistent = true
  counted : turn.solver.factorization.file.factorColumns
    ≤ turn.solver.factorization.file.nrColumns
  refused : ∀ e, turn.step = some (.error e) →
    ∃ row index value, e = .numericFailure row index value
  goesOn : ∀ e, turn.verdict ≠ .fail e
  agrees : ∀ status, turn.verdict = .conclude status → turn.solver.Agrees status

namespace Solver

variable {solver after : Solver (ProductForm F) F} {reading : Reading} {recovering : Bool}
  {turn : Turn (ProductForm F) F}

/-- A solve goes on after a step, or ends with a status. -/
theorem verdictAfter_ne_fail (solver : Solver (ProductForm F) F) (reading : Reading)
    (recovering : Bool) (result : StepResult) (e : Error) :
  solver.verdictAfter reading recovering result ≠ .fail e
  := by
  unfold verdictAfter
  cases result with
  | done status => simp
  | iterated kind =>
      dsimp only
      cases solver.interruption? reading <;> simp

/-- An interruption agrees with all values. -/
theorem agrees_of_iterated {kind : IterationKind} {status : Status}
    (h : solver.verdictAfter reading recovering (.iterated kind) = .conclude status) :
  after.Agrees status
  := by
  obtain ⟨hoptimal, hinfeasible, hunbounded⟩ :=
    verdictAfter_iterated solver reading recovering kind
  rw [h] at hoptimal hinfeasible hunbounded
  constructor
  · rintro (rfl | rfl)
    · cases hoptimal rfl
    · cases hunbounded rfl
  · rintro rfl
    cases hinfeasible rfl

/-- The status that a step has found agrees with the values. -/
theorem Shaped.agrees_of_step? (h : solver.Shaped) {feasible : Bool} {status : Status}
    (hfeasible : solver.isFeasible? = some feasible) (hexpected : Expected feasible status)
    {outcome : Outcome (Solver (ProductForm F) F) (Except Error StepResult)}
    (hstep : solver.step? = some outcome) (hresult : outcome.result = .ok (.done status)) :
  outcome.state.Agrees status
  := by
  obtain ⟨loaded, hloads, rfl, -⟩ := h.loads_of_step? hstep hresult
  apply agrees_of_expected _ hexpected
  change loaded.isFeasible? = some feasible
  rw [hloads.isFeasible?_eq, hfeasible]

/-- Nothing goes wrong in a turn of a guarded solver. -/
theorem Shaped.safe_of_turn? [RoundedScalar F] (h : solver.Shaped) (hguarded : solver.Guarded)
    (hturn : solver.turn? reading recovering = some turn) :
  turn.Safe
  := by
  have hcounted := (h.turn? hturn).1.shaped.form.counted
  have hconsistent := turn.solver.basis.isConsistent_eq_true
  obtain ⟨prepared, hprepared, -, hcases⟩ := turn?_cases hturn
  obtain ⟨hfollows, -, -, hcurrent⟩ := h.prepare? hprepared
  rcases hcases with ⟨hpolicy, hstep, hverdict, hsolver⟩ | ⟨outcome, hstep, hturnStep, hcases⟩
  · -- A singular column ends the solve.
    refine ⟨hconsistent, hcounted, by simp [hstep], by simp [hverdict], ?_⟩
    intro status hstatus
    rw [hverdict] at hstatus
    cases hstatus
    refine ⟨by simp, ?_⟩
    intro _ hrepair
    rw [hsolver, hpolicy] at hrepair
    cases hrepair
  · obtain ⟨feasible, other, hfeasible, hother, hregular⟩ :=
      hfollows.shaped.exists_step? (hguarded.follows hfollows) hcurrent
    rw [hstep, Option.some_inj] at hother
    subst hother
    rcases hcases with ⟨result, hresult, hverdict, hsolver⟩
      | ⟨row, index, value, hresult, hverdict, hsolver⟩ | ⟨e, hresult, hnot, -⟩
    · rw [hresult] at hregular hturnStep
      refine ⟨hconsistent, hcounted, by simp [hturnStep], ?_, ?_⟩
      · rw [hverdict]
        apply verdictAfter_ne_fail
      · intro status hstatus
        rw [hverdict] at hstatus
        cases hregular with
        | iterated kind => apply agrees_of_iterated hstatus
        | done hexpected =>
            cases hstatus
            rw [hsolver]
            apply hfollows.shaped.agrees_of_step? hfeasible hexpected hstep hresult
    · rw [hresult] at hturnStep
      refine ⟨hconsistent, hcounted, ?_, ?_, ?_⟩
      · intro e he
        rw [hturnStep] at he
        cases he
        exact ⟨row, index, value, rfl⟩
      · rw [hverdict]
        cases recovering <;> simp
      · intro status hstatus
        rw [hverdict] at hstatus
        cases recovering with
        | true =>
            cases hstatus
            exact ⟨by simp, by simp⟩
        | false => cases hstatus
    · rw [hresult] at hregular
      cases hregular with
      | refused row index value => cases hnot row index value rfl

/-- A basis can be factorized if that is due. -/
theorem Shaped.exists_prepare? [LawfulScalar F] (h : solver.Shaped) (hguarded : solver.Guarded)
    (reading : Reading) :
  ∃ prepared, solver.prepare? reading = some prepared
  := by
  have hfollows := h.follows_factorizationDue reading
  unfold Solver.prepare?
  cases hdue : solver.factorizationDue reading with
  | mk due next =>
      rw [hdue] at hfollows
      cases due with
      | false => exact ⟨_, rfl⟩
      | true =>
          have hshaped := hfollows.shaped
          have hnext := hguarded.follows hfollows
          obtain ⟨outcome, houtcome⟩ := hshaped.sized.exists_refactorize? hshaped.nrRows
            hnext.factorizationPivot hnext.rowSelection
          dsimp only at houtcome ⊢
          unfold Solver.rebuild?
          rw [houtcome]
          exact ⟨_, rfl⟩

/-- Every turn of a guarded solver has a result. -/
theorem Shaped.exists_turn? [RoundedScalar F] (h : solver.Shaped) (hguarded : solver.Guarded)
    (reading : Reading) (recovering : Bool) :
  ∃ turn, solver.turn? reading recovering = some turn
  := by
  obtain ⟨prepared, hprepared⟩ := h.exists_prepare? hguarded reading
  obtain ⟨hfollows, -, -, hcurrent⟩ := h.prepare? hprepared
  obtain ⟨_, outcome, -, houtcome, -⟩ :=
    hfollows.shaped.exists_step? (hguarded.follows hfollows) hcurrent
  unfold Solver.turn? stepTurn?
  rw [hprepared, Option.bind_eq_bind, Option.bind_some]
  dsimp only
  rw [houtcome, Option.bind_eq_bind, Option.bind_some]
  split
  · exact ⟨_, rfl⟩
  · split
    · exact ⟨_, rfl⟩
    · split <;> exact ⟨_, rfl⟩
    · exact ⟨_, rfl⟩

/-! ### Solves -/

variable {readings : ℕ → Reading}

/-- Every solve of a guarded solver has turns in which nothing goes wrong.  By induction on the
budget. -/
theorem Shaped.exists_run? [RoundedScalar F] (readings : ℕ → Reading) :
    ∀ (budget i : ℕ) (recovering : Bool) {solver : Solver (ProductForm F) F},
      solver.Shaped → solver.Guarded →
      ∃ turns, run? readings budget i recovering solver = some turns
        ∧ ∀ turn ∈ turns, turn.Safe ∧ turn.solver.Shaped
  | 0, _, _, _, _, _ => ⟨[], rfl, by simp⟩
  | budget + 1, i, recovering, solver, h, hguarded => by
      obtain ⟨turn, hturn⟩ := h.exists_turn? hguarded (readings i) recovering
      have hsafe := h.safe_of_turn? hguarded hturn
      have hfollows := (h.turn? hturn).1
      unfold run?
      rw [hturn, Option.bind_eq_bind, Option.bind_some]
      split
      · obtain ⟨later, hlater, hspec⟩ := exists_run? readings budget (i + 1) _ hfollows.shaped
          (hguarded.follows hfollows)
        rw [hlater]
        exact ⟨_, rfl, List.forall_mem_cons.mpr ⟨⟨hsafe, hfollows.shaped⟩, hspec⟩⟩
      · exact ⟨_, rfl, List.forall_mem_singleton.mpr ⟨hsafe, hfollows.shaped⟩⟩

/-- Turns in which nothing goes wrong lead to an end without an error, and to a result with a status
that agrees with its values. -/
theorem exists_finish? {turns : List (Turn (ProductForm F) F)}
    (h : ∀ turn ∈ turns, turn.Safe ∧ turn.solver.Shaped) (start : Solver (ProductForm F) F) :
  ∃ outcome, start.finish? turns = some outcome ∧ (∀ e, outcome.result ≠ .failed e)
    ∧ ∀ result, outcome.result = .solved result →
      outcome.state.Agrees result.status ∧ outcome.state.isFeasible? = some result.feasible
  := by
  unfold finish?
  cases hlast : turns.getLast? with
  | none => exact ⟨_, rfl, by simp, by simp⟩
  | some last =>
      obtain ⟨hsafe, hshaped⟩ := h last (List.mem_of_getLast? hlast)
      cases hverdict : last.verdict with
      | again recovering => simp [hverdict]
      | fail e => cases hsafe.goesOn e hverdict
      | conclude status =>
          obtain ⟨found, hfound, rfl⟩ := hshaped.exists_result? status
          simp only [hverdict, hfound, Option.bind_eq_bind, Option.bind_some]
          refine ⟨_, rfl, by simp, ?_⟩
          intro result hresult
          cases hresult
          exact ⟨hsafe.agrees _ hverdict, (result?_spec hfound).2.2⟩

/-! ### Visited solvers -/

variable {model : Model F} {settings : Settings} {rule : PricingRule F}

/-- Accepted settings with positive pivot tolerances, where pivots are chosen by their magnitude,
guard a solver with a complete rule. -/
theorem MadeOf.guarded_of_complete [RoundedScalar F] (h : solver.MadeOf model settings rule)
    (hrule : rule.Complete) (hselection : settings.rowSelection = .largestMagnitude)
    (hpivot : 0 < (Context.convert settings : Context F).tolerances.pivot)
    (hfactorization :
      0 < (Context.convert settings : Context F).tolerances.factorizationPivot) :
  solver.Guarded
  := by
  have hcontext := (Context.ofSettings_eq_ok h.accepted).2
  constructor
  case primal => apply (RoundedScalar.tolerances_nonneg_of_ofSettings h.accepted).1
  case pivot =>
    rw [hcontext]
    apply hpivot
  case factorizationPivot =>
    rw [hcontext]
    apply hfactorization
  case rowSelection =>
    rw [hcontext]
    change settings.rowSelection.map Scalar.ofFloat = _
    rw [hselection]
    rfl
  case pricing =>
    rw [h.pricing]
    apply hrule

/-- The rules that a solver is given are complete. -/
theorem MadeOf.guarded [RoundedScalar F] (h : solver.MadeOf model settings rule)
    (hrule : rule = .dantzig ∨ rule = .first)
    (hselection : settings.rowSelection = .largestMagnitude)
    (hpivot : 0 < (Context.convert settings : Context F).tolerances.pivot)
    (hfactorization :
      0 < (Context.convert settings : Context F).tolerances.factorizationPivot) :
  solver.Guarded
  := h.guarded_of_complete (PricingRule.complete_of_eq hrule) hselection hpivot hfactorization

/-- A basis is taken over if it has the size of the model. -/
theorem Shaped.setBasis_cases (h : solver.Shaped) (basis : Basis) :
  (∃ after, solver.setBasis basis = .ok after
      ∧ solver.iterate.setBasis? basis = some after.iterate)
    ∨ ∃ what expected actual,
      solver.setBasis basis = .error (.dimensionMismatch what expected actual)
  := by
  unfold setBasis
  split
  · exact Or.inr ⟨_, _, _, rfl⟩
  · rename_i hrows
    split
    · exact Or.inr ⟨_, _, _, rfl⟩
    · refine Or.inl ⟨_, rfl, ?_⟩
      have hlength := h.sized.values
      unfold Iterate.setBasis?
      rw [if_pos (by omega)]

/-- Solves never fail.

Let a solver of machine numbers, or of exact ones, come from a new one by setting bases and by
solves, with accepted settings whose pivot tolerances are positive and with pivots chosen by their
magnitude.  Setting a basis fails for a basis of the wrong size only.  A solve has a result,
whatever the clocks show and however many turns it takes: in none of its turns does an access or a
subtraction go wrong or a pivot end with another error than a refusal, all bases are consistent,
and the end is not an error.  The values of an optimal or unbounded model are feasible, and those
of an infeasible one are not if singular columns are repaired. -/
theorem Visited.solve?_safe [RoundedScalar F] (h : Visited model settings rule solver)
    (hrule : rule = .dantzig ∨ rule = .first)
    (hselection : settings.rowSelection = .largestMagnitude)
    (hpivot : 0 < (Context.convert settings : Context F).tolerances.pivot)
    (hfactorization :
      0 < (Context.convert settings : Context F).tolerances.factorizationPivot) :
  (∀ basis : Basis, basis.isConsistent = true
    ∧ ((∃ after, solver.setBasis basis = .ok after
          ∧ solver.iterate.setBasis? basis = some after.iterate)
      ∨ ∃ what expected actual,
        solver.setBasis basis = .error (.dimensionMismatch what expected actual)))
    ∧ ∀ readings patience, ∃ turns outcome,
      run? readings (solver.turnBudget patience) 0 false solver = some turns
        ∧ (∀ turn ∈ turns, turn.Safe)
        ∧ solver.solve? readings patience = some outcome
        ∧ (∀ e, outcome.result ≠ .failed e)
        ∧ ∀ result, outcome.result = .solved result →
          (result.status = .optimal ∨ result.status = .unbounded → result.feasible = true)
            ∧ (result.status = .infeasible → settings.singularPolicy = .repair →
              result.feasible = false)
  := by
  have hmade := h.madeOf
  have hguarded := hmade.guarded hrule hselection hpivot hfactorization
  constructor
  · intro basis
    exact ⟨basis.isConsistent_eq_true, hmade.shaped.setBasis_cases basis⟩
  · intro readings patience
    obtain ⟨turns, hturns, hsafe⟩ :=
      hmade.shaped.exists_run? readings (solver.turnBudget patience) 0 false hguarded
    obtain ⟨outcome, houtcome, hgoesOn, hagrees⟩ := exists_finish? hsafe solver
    have hsolve : solver.solve? readings patience = some outcome := by
      unfold solve?
      rw [hturns, Option.bind_eq_bind, Option.bind_some, houtcome]
    have hlast := (hmade.shaped.endOf? (endOf?_of_solve? hsolve)).1
    refine ⟨turns, outcome, hturns, fun turn hturn => (hsafe turn hturn).1, hsolve, hgoesOn, ?_⟩
    intro result hresult
    obtain ⟨⟨hfeasible, hinfeasible⟩, hread⟩ := hagrees result hresult
    rw [hread, Option.some_inj] at hfeasible hinfeasible
    rw [(hmade.follows hlast).settings] at hinfeasible
    exact ⟨hfeasible, hinfeasible⟩

/-- The model with thirds, solved in doubles. -/
theorem Visited.solve?_safe_thirds :
  Visited .thirds .untimed .dantzig thirds
    ∧ Settings.untimed.rowSelection = .largestMagnitude
    ∧ 0 < (Context.convert .untimed : Context Float).tolerances.pivot
    ∧ 0 < (Context.convert .untimed : Context Float).tolerances.factorizationPivot
    ∧ ∃ turns outcome result,
      run? (fun _ => {}) (thirds.turnBudget 5) 0 false thirds = some turns
        ∧ (∀ turn ∈ turns, turn.Safe) ∧ thirds.solve? (fun _ => {}) 5 = some outcome
        ∧ outcome.result = .solved result ∧ result.status = .optimal ∧ result.feasible = true
  := by
  have hpivot : 0 < (Context.convert .untimed : Context Float).tolerances.pivot := by
    decide +kernel
  have hfactorization :
      0 < (Context.convert .untimed : Context Float).tolerances.factorizationPivot := by
    decide +kernel
  have hstatus : ((thirds.solve? (fun _ => {}) 5).bind fun outcome =>
      outcome.result.status?) = some .optimal := by
    decide +kernel
  obtain ⟨found, result, hfound, hresult, hoptimal⟩ := exists_solved hstatus
  obtain ⟨turns, outcome, hturns, hsafe, hsolve, -, hagrees⟩ :=
    (thirds_visited.solve?_safe (Or.inl rfl) rfl hpivot hfactorization).2 (fun _ => {}) 5
  rw [hfound, Option.some_inj] at hsolve
  subst hsolve
  exact ⟨thirds_visited, rfl, hpivot, hfactorization, turns, found, result, hturns, hsafe, hfound,
    hresult, hoptimal, (hagrees result hresult).1 (Or.inl hoptimal)⟩

end Solver

end RevisedSimplex
