import RevisedSimplex.Proofs.AcceptedSettings
import RevisedSimplex.Proofs.SolverShape

/-!
# Histories of a solver in any numbers

A run is its first turn and a run of the others, if there are others, and its last turn decides how
the solve ends.  `endOf?` finds the end of a solve and the solver after it turn by turn, and
`solve?` adds nothing to it but the events.  The solvers that come from a new one by setting bases
and by solves are `Visited`; they keep what they were made from, and their data have the size of the
model.
-/

namespace RevisedSimplex

namespace Solver

/-! ### The turns of a solve -/

section Runs

variable {R F : Type} [Scalar F] [BasisFactorization R F] {solver : Solver R F}
  {readings : ℕ → Reading} {budget i : ℕ} {recovering : Bool} {turn last : Turn R F}
  {turns later : List (Turn R F)} {status : Status} {result : SolveResult F}
  {outcome : Outcome (Solver R F) (SolveEnd F)}

/-- The first turn of a run, and the rest of it. -/
theorem run?_cons (h : run? readings budget i recovering solver = some (turn :: later)) :
  ∃ rest, budget = rest + 1 ∧ solver.turn? (readings i) recovering = some turn
    ∧ ((∃ flag, turn.verdict = .again flag
        ∧ run? readings rest (i + 1) flag turn.solver = some later)
      ∨ (∀ flag, turn.verdict ≠ .again flag) ∧ later = [])
  := by
  cases budget with
  | zero => cases h
  | succ rest =>
      refine ⟨rest, rfl, ?_⟩
      unfold run? at h
      obtain ⟨first, hfirst, h⟩ := Option.bind_eq_some_iff.mp h
      split at h
      · rename_i flag hverdict
        obtain ⟨next, hnext, h⟩ := Option.bind_eq_some_iff.mp h
        cases h
        exact ⟨hfirst, Or.inl ⟨flag, hverdict, hnext⟩⟩
      · rename_i hverdict
        cases h
        exact ⟨hfirst, Or.inr ⟨hverdict, rfl⟩⟩

/-- A run goes on after a turn that asks for another one. -/
theorem run?_of_again {flag : Bool} (hturn : solver.turn? (readings i) recovering = some turn)
    (hverdict : turn.verdict = .again flag)
    (hlater : run? readings budget (i + 1) flag turn.solver = some later) :
  run? readings (budget + 1) i recovering solver = some (turn :: later)
  := by
  unfold run?
  rw [hturn, Option.bind_eq_bind, Option.bind_some, hverdict]
  dsimp only
  rw [hlater]
  rfl

/-- Any other turn is the last one. -/
theorem run?_of_last (hturn : solver.turn? (readings i) recovering = some turn)
    (hverdict : ∀ flag, turn.verdict ≠ .again flag) :
  run? readings (budget + 1) i recovering solver = some [turn]
  := by
  unfold run?
  rw [hturn, Option.bind_eq_bind, Option.bind_some]
  split
  · rename_i flag hagain
    cases hverdict flag hagain
  · rfl

/-- What a result says about the solver that it is read off. -/
theorem result?_spec (h : solver.result? status = some result) :
  result.status = status ∧ result.statistics = solver.statistics
    ∧ solver.iterate.isFeasible? solver.context.tolerances solver.model = some result.feasible
  := by
  unfold result? at h
  obtain ⟨structural, -, h⟩ := Option.bind_eq_some_iff.mp h
  obtain ⟨slack, -, h⟩ := Option.bind_eq_some_iff.mp h
  obtain ⟨feasible, hfeasible, h⟩ := Option.bind_eq_some_iff.mp h
  cases h
  exact ⟨rfl, rfl, hfeasible⟩

/-- The state at the end of a solve is that after its last turn. -/
theorem state_of_finish? (h : solver.finish? turns = some outcome) :
  outcome.state = (turns.getLast?.map Turn.solver).getD solver
  := by
  unfold finish? at h
  cases hlast : turns.getLast? with
  | none =>
      rw [hlast] at h
      cases h
      rfl
  | some last =>
      rw [hlast] at h
      dsimp only at h
      split at h
      · cases h
        rfl
      · cases h
        rfl
      · obtain ⟨result, -, h⟩ := Option.bind_eq_some_iff.mp h
        cases h
        rfl

/-- The result of a solve is read off its last turn, with the status that this has concluded. -/
theorem exists_last_of_finish? (h : solver.finish? turns = some outcome)
    (hresult : outcome.result = .solved result) :
  ∃ last, turns.getLast? = some last ∧ last.verdict = .conclude result.status
    ∧ last.solver.result? result.status = some result ∧ outcome.state = last.solver
  := by
  have hstate := state_of_finish? h
  unfold finish? at h
  cases hlast : turns.getLast? with
  | none =>
      rw [hlast] at h
      cases h
      cases hresult
  | some last =>
      rw [hlast] at h hstate
      refine ⟨last, rfl, ?_⟩
      dsimp only at h
      split at h
      · cases h
        cases hresult
      · cases h
        cases hresult
      · rename_i status hverdict
        obtain ⟨found, hfound, h⟩ := Option.bind_eq_some_iff.mp h
        cases h
        cases hresult
        obtain ⟨rfl, -⟩ := result?_spec hfound
        exact ⟨hverdict, hfound, hstate⟩

/-- A solve whose last turn has concluded with a result has that result. -/
theorem finish?_of_conclude (hlast : turns.getLast? = some last)
    (hverdict : last.verdict = .conclude status)
    (hresult : last.solver.result? status = some result) (start : Solver R F) :
  ∃ outcome, start.finish? turns = some outcome ∧ outcome.result = .solved result
    ∧ outcome.state = last.solver
  := by
  unfold finish?
  rw [hlast]
  dsimp only
  rw [hverdict]
  dsimp only
  rw [hresult]
  exact ⟨_, rfl, rfl, rfl⟩

end Runs

/-! ### The end of a solve -/

section Ends

variable {R F : Type} [Scalar F] [BasisFactorization R F]

/-- What a solve ends with and the solver at its end, found turn by turn. -/
def endOf? (readings : ℕ → Reading) : (budget : ℕ) → (i : ℕ) → (recovering : Bool) →
    Solver R F → Option (SolveEnd F × Solver R F)
  | 0, _, _, solver => some (.unfinished, solver)
  | budget + 1, i, recovering, solver => do
      let turn ← solver.turn? (readings i) recovering
      match turn.verdict with
      | .again recovering => endOf? readings budget (i + 1) recovering turn.solver
      | .fail e => some (.failed e, turn.solver)
      | .conclude status => do
          let result ← turn.solver.result? status
          some (.solved result, turn.solver)

/-- The turns of a solve lead to its end.  By induction on the budget. -/
theorem endOf?_eq (readings : ℕ → Reading) :
    ∀ (budget i : ℕ) (recovering : Bool) (solver : Solver R F),
      endOf? readings budget i recovering solver
        = ((run? readings budget i recovering solver).bind solver.finish?).map
          fun outcome => (outcome.result, outcome.state)
  | 0, _, _, solver => rfl
  | budget + 1, i, recovering, solver => by
      unfold endOf? run?
      cases hturn : solver.turn? (readings i) recovering with
      | none => rfl
      | some turn =>
          simp only [Option.bind_eq_bind, Option.bind_some]
          cases hverdict : turn.verdict with
          | again flag =>
              dsimp only
              rw [endOf?_eq readings budget (i + 1) flag turn.solver]
              cases hlater : run? readings budget (i + 1) flag turn.solver with
              | none => rfl
              | some later =>
                  simp only [Option.bind_some]
                  unfold finish?
                  cases later with
                  | nil => simp [hverdict]
                  | cons next later =>
                      rw [List.getLast?_cons_cons]
                      cases hlast : (next :: later).getLast? with
                      | none => simp at hlast
                      | some last =>
                          dsimp only
                          cases last.verdict with
                          | again _ => rfl
                          | fail e => rfl
                          | conclude status =>
                              dsimp only
                              cases last.solver.result? status with
                              | none => rfl
                              | some result => rfl
          | fail e => simp [finish?, hverdict]
          | conclude status =>
              simp only [Option.bind_some, finish?, List.getLast?_singleton, hverdict]
              cases turn.solver.result? status with
              | none => rfl
              | some result => rfl

theorem endOf?_of_solve? {readings : ℕ → Reading} {patience : ℕ} {solver : Solver R F}
    {outcome : Outcome (Solver R F) (SolveEnd F)}
    (h : solver.solve? readings patience = some outcome) :
  endOf? readings (solver.turnBudget patience) 0 false solver
    = some (outcome.result, outcome.state)
  := by
  rw [endOf?_eq]
  unfold solve? at h
  rw [Option.bind_eq_bind] at h
  rw [h]
  rfl

/-- A solve that comes to an end turn by turn has an outcome. -/
theorem exists_solve?_of_endOf? {readings : ℕ → Reading} {patience : ℕ} {solver after : Solver R F}
    {found : SolveEnd F}
    (h : endOf? readings (solver.turnBudget patience) 0 false solver = some (found, after)) :
  ∃ outcome, solver.solve? readings patience = some outcome ∧ outcome.result = found
    ∧ outcome.state = after
  := by
  rw [endOf?_eq] at h
  obtain ⟨outcome, houtcome, h⟩ := Option.map_eq_some_iff.mp h
  cases h
  exact ⟨outcome, houtcome, rfl, rfl⟩

/-- A solve whose first turn concludes has its result. -/
theorem exists_solve?_of_turn? {readings : ℕ → Reading} {patience : ℕ} {solver : Solver R F}
    {turn : Turn R F} {status : Status} {result : SolveResult F}
    (hturn : solver.turn? (readings 0) false = some turn)
    (hverdict : turn.verdict = .conclude status)
    (hresult : turn.solver.result? status = some result) (hpatience : 0 < patience) :
  ∃ outcome, solver.solve? readings patience = some outcome
    ∧ outcome.result = .solved result ∧ outcome.state = turn.solver
  := by
  have hbudget : 0 < solver.turnBudget patience := by
    unfold turnBudget
    split
    · apply Nat.succ_pos
    · apply hpatience
  obtain ⟨budget, hbudget⟩ := Nat.exists_eq_add_one.mpr hbudget
  have hrun : run? readings (solver.turnBudget patience) 0 false solver = some [turn] := by
    rw [hbudget]
    apply run?_of_last hturn
    simp [hverdict]
  unfold solve?
  rw [hrun, Option.bind_eq_bind, Option.bind_some]
  apply finish?_of_conclude rfl hverdict hresult

end Ends

/-! ### Visited solvers -/

section Visits

variable {F : Type} [Scalar F] {model : Model F} {settings : Settings} {rule : PricingRule F}
  {solver after : Solver (ProductForm F) F} {readings : ℕ → Reading}

/-- The solvers that come from a new one by setting bases and by solves. -/
inductive Visited (model : Model F) (settings : Settings) (rule : PricingRule F) :
    Solver (ProductForm F) F → Prop
  | made {solver : Solver (ProductForm F) F} :
      withComponents model settings (ProductForm.identity model.nrRows) rule = .ok solver →
      Visited model settings rule solver
  | setBasis {solver after : Solver (ProductForm F) F} (basis : Basis) :
      Visited model settings rule solver → solver.setBasis basis = .ok after →
      Visited model settings rule after
  | solve {solver : Solver (ProductForm F) F}
      {outcome : Outcome (Solver (ProductForm F) F) (SolveEnd F)} (readings : ℕ → Reading)
      (patience : ℕ) :
      Visited model settings rule solver → solver.solve? readings patience = some outcome →
      Visited model settings rule outcome.state

/-- A solver made from the given parts that never change, with data of the size of the model. -/
structure MadeOf (model : Model F) (settings : Settings) (rule : PricingRule F)
    (solver : Solver (ProductForm F) F) : Prop where
  accepted : Context.ofSettings settings = .ok solver.context
  model : solver.model = model
  settings : solver.settings = settings
  pricing : solver.pricing = rule
  shaped : solver.Shaped

/-- What follows is made of the same parts. -/
theorem MadeOf.follows (h : solver.MadeOf model settings rule) (hfollows : solver.Follows after) :
  after.MadeOf model settings rule
  := by
  have hshaped := hfollows.shaped
  obtain ⟨_, _, _, rfl, -⟩ := hfollows
  exact ⟨h.accepted, h.model, h.settings, h.pricing, hshaped⟩

/-- The end of a solve takes back neither iterations nor refused pivots.  By induction on the
budget. -/
theorem Shaped.endOf? :
    ∀ {budget i : ℕ} {recovering : Bool} {solver : Solver (ProductForm F) F} {found : SolveEnd F},
      solver.Shaped → endOf? readings budget i recovering solver = some (found, after) →
      solver.Follows after
        ∧ solver.iterate.nrIterations ≤ after.iterate.nrIterations
        ∧ solver.counters.numericFailures ≤ after.counters.numericFailures
  | 0, _, _, _, _, hshaped, h => by
      cases h
      exact ⟨hshaped.follows, le_rfl, le_rfl⟩
  | budget + 1, i, recovering, solver, found, hshaped, h => by
      unfold Solver.endOf? at h
      obtain ⟨turn, hturn, h⟩ := Option.bind_eq_some_iff.mp h
      obtain ⟨hfollows, hcount, hfailures⟩ := hshaped.turn? hturn
      split at h
      · obtain ⟨hlast, hmore, hrefused⟩ := Shaped.endOf? hfollows.shaped h
        exact ⟨hfollows.trans hlast, hcount.trans hmore, hfailures.trans hrefused⟩
      · cases h
        exact ⟨hfollows, hcount, hfailures⟩
      · obtain ⟨result, -, h⟩ := Option.bind_eq_some_iff.mp h
        cases h
        exact ⟨hfollows, hcount, hfailures⟩

/-- The result of a solve is read off the solver after its last turn.  By induction on the
budget. -/
theorem Shaped.exists_turn :
    ∀ {budget i : ℕ} {recovering : Bool} {solver : Solver (ProductForm F) F}
      {result : SolveResult F}, solver.Shaped →
      Solver.endOf? readings budget i recovering solver = some (.solved result, after) →
      ∃ before reading flag turn, solver.Follows before
        ∧ before.turn? reading flag = some turn ∧ turn.verdict = .conclude result.status
        ∧ turn.solver = after ∧ after.result? result.status = some result
  | 0, _, _, _, _, _, h => by
      cases h
  | budget + 1, i, recovering, solver, result, hshaped, h => by
      unfold Solver.endOf? at h
      obtain ⟨turn, hturn, h⟩ := Option.bind_eq_some_iff.mp h
      split at h
      · have hfollows := (hshaped.turn? hturn).1
        obtain ⟨before, reading, flag, last, hbefore, hlast⟩ :=
          Shaped.exists_turn hfollows.shaped h
        exact ⟨before, reading, flag, last, hfollows.trans hbefore, hlast⟩
      · cases h
      · rename_i status hverdict
        obtain ⟨found, hfound, h⟩ := Option.bind_eq_some_iff.mp h
        cases h
        obtain ⟨rfl, -⟩ := result?_spec hfound
        exact ⟨solver, _, _, turn, hshaped.follows, hturn, hverdict, rfl, hfound⟩

/-- A new solver is a start with the context of its settings. -/
theorem withComponents_eq_ok {factorization : ProductForm F}
    (h : withComponents model settings factorization rule = .ok solver) :
  ∃ context, Context.ofSettings settings = .ok context
    ∧ solver = start model settings context factorization rule
  := by
  unfold withComponents at h
  cases hcontext : Context.ofSettings (F := F) settings with
  | error e =>
      rw [hcontext] at h
      cases h
  | ok context =>
      rw [hcontext] at h
      cases h
      exact ⟨context, rfl, rfl⟩

/-- A basis that is accepted has the size of the model, and has to be factorized. -/
theorem setBasis_eq_ok {basis : Basis} (h : solver.setBasis basis = .ok after) :
  basis.nrRows = solver.model.nrRows ∧ basis.nrVariables = solver.model.nrVariables
    ∧ after =
      { solver with
        iterate := { solver.iterate with basis, current := false }
        factorization := BasisFactorization.forceRefactorization solver.factorization }
  := by
  unfold Solver.setBasis at h
  split at h
  · cases h
  · rename_i hrows
    split at h
    · cases h
    · rename_i hvariables
      cases h
      exact ⟨not_not.mp hrows, not_not.mp hvariables, rfl⟩

/-- A new solver starts from the basis of all slacks. -/
theorem madeOf_of_withComponents
    (h : withComponents model settings (ProductForm.identity model.nrRows) rule = .ok solver) :
  solver.MadeOf model settings rule
  := by
  obtain ⟨context, hcontext, rfl⟩ := withComponents_eq_ok h
  exact ⟨hcontext, rfl, rfl, rfl, Iterate.sized_start model, rfl,
    (ProductForm.Reached.identity model.nrRows).shaped⟩

/-- An accepted basis has the size of the model. -/
theorem MadeOf.setBasis (h : solver.MadeOf model settings rule) {basis : Basis}
    (hset : solver.setBasis basis = .ok after) :
  after.MadeOf model settings rule
  := by
  obtain ⟨hrows, hvariables, rfl⟩ := setBasis_eq_ok hset
  have hsized := h.shaped.sized
  exact ⟨h.accepted, h.model, h.settings, h.pricing,
    ⟨hrows, hvariables, hsized.values, hsized.pivotColumn⟩, h.shaped.nrRows, h.shaped.form.fits,
    h.shaped.form.staged, h.shaped.form.counted⟩

/-- Every visited solver is made of the parts that it was given. -/
theorem Visited.madeOf (h : Visited model settings rule solver) :
  solver.MadeOf model settings rule
  := by
  induction h with
  | made hmade => apply madeOf_of_withComponents hmade
  | setBasis basis _ hset ih => apply ih.setBasis hset
  | solve readings patience _ hsolve ih =>
      apply ih.follows (ih.shaped.endOf? (endOf?_of_solve? hsolve)).1

/-- The policy of a visited solver is that of its settings. -/
theorem MadeOf.policy (h : solver.MadeOf model settings rule) :
  solver.context.policy = settings.policy
  := by
  rw [(Context.ofSettings_eq_ok h.accepted).2]
  rfl

/-- The cap of accepted settings is positive. -/
theorem MadeOf.pivotCap_pos (h : solver.MadeOf model settings rule) :
  0 < solver.context.policy.pivotCap
  := by
  rw [h.policy]
  apply (Context.inRange_of_ofSettings h.accepted).1.policy.pivotCap

/-- A shaped solver has a result for every status. -/
theorem Shaped.exists_result? (h : solver.Shaped) (status : Status) :
  ∃ result, solver.result? status = some result ∧ result.status = status
  := by
  have hvalues (first length : ℕ) (hlast : first + length ≤ solver.model.nrVariables) :
      ∃ values, (List.range' first length).mapM (solver.iterate.value? solver.model)
        = some values := by
    apply exists_mapM
    intro v hv
    rw [List.mem_range'_1] at hv
    apply h.sized.exists_value?
    omega
  obtain ⟨structural, hstructural⟩ :=
    hvalues (solver.model.nrRows + 1) solver.model.nrColumns (by unfold Model.nrVariables; omega)
  obtain ⟨slack, hslack⟩ :=
    hvalues 1 solver.model.nrRows (by unfold Model.nrVariables; omega)
  obtain ⟨feasible, hfeasible⟩ := h.sized.exists_isFeasible? solver.context.tolerances
  unfold result?
  dsimp only
  rw [hstructural, Option.bind_eq_bind, Option.bind_some, hslack, Option.bind_eq_bind,
    Option.bind_some, hfeasible]
  exact ⟨_, rfl, rfl⟩

/-- The status that a solve has come to. -/
def SolveEnd.status? : SolveEnd F → Option Status
  | .solved result => some result.status
  | _ => none

/-- A solve that comes to a status has a result. -/
theorem exists_solved {patience : ℕ} {status : Status}
    (h : ((solver.solve? readings patience).bind fun outcome => outcome.result.status?)
      = some status) :
  ∃ outcome result, solver.solve? readings patience = some outcome
    ∧ outcome.result = .solved result ∧ result.status = status
  := by
  obtain ⟨outcome, houtcome, h⟩ := Option.bind_eq_some_iff.mp h
  cases hresult : outcome.result with
  | solved result =>
      rw [hresult] at h
      exact ⟨outcome, result, houtcome, hresult, Option.some_inj.mp h⟩
  | failed e =>
      rw [hresult] at h
      cases h
  | unfinished =>
      rw [hresult] at h
      cases h

end Visits

end Solver

/-! ### Thirds -/

/-- A model of doubles with a solution that passes through thirds. -/
def Model.thirds : Model Float where
  matrix := ⟨[[(0, 1), (1, 3)], [(0, 3), (1, 1)]], 2, by decide +kernel⟩
  cost := [-1, -1]
  rightHandSide := [4, 4]
  relations := List.replicate 2 .less
  goal := .maximize
  bounds := List.replicate 4 (.atLeast 0)
  cost_length := rfl
  rightHandSide_length := rfl
  relations_length := rfl
  bounds_length := rfl

/-- The usual settings, without a watch on the time. -/
def Settings.untimed : Settings where
  policy := { timed := false }

/-- The same settings with a signal to stop. -/
def Settings.stoppable : Settings :=
  { Settings.untimed with abort := some false }

/-- A new solver for the model. -/
def Solver.thirds : Solver (ProductForm Float) Float :=
  start .thirds .untimed (.convert .untimed) (ProductForm.identity 2) .dantzig

/-- A new solver for the model with other settings. -/
def Solver.thirdsWith (settings : Settings) : Solver (ProductForm Float) Float :=
  start .thirds settings (.convert settings) (ProductForm.identity 2) .dantzig

theorem Solver.thirdsWith_made {settings : Settings} (h : settings.fault?.isNone = true) :
  withComponents .thirds settings (ProductForm.identity Model.thirds.nrRows) .dantzig
    = .ok (thirdsWith settings)
  := by
  unfold withComponents Context.ofSettings
  rw [Option.isNone_iff_eq_none.mp h]
  rfl

theorem Solver.thirds_made :
  withComponents .thirds .untimed (ProductForm.identity Model.thirds.nrRows) .dantzig = .ok thirds
  := thirdsWith_made (by decide +kernel)

theorem Solver.thirds_visited :
  Visited .thirds .untimed .dantzig Solver.thirds
  := .made thirds_made

/-- A new solver for the model, with a signal to stop. -/
def Solver.stoppable : Solver (ProductForm Float) Float :=
  thirdsWith .stoppable

theorem Solver.stoppable_visited :
  Visited .thirds .stoppable .dantzig Solver.stoppable
  := .made (thirdsWith_made (by decide +kernel))

end RevisedSimplex
