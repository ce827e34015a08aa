import RevisedSimplex.Solver.Step

/-!
# Runs of a solver

A solve is a sequence of turns.  A turn factorizes the basis if that is due, takes a step, and
then either asks for another turn or ends the solve.  A refused pivot makes the next turn
factorize first; when a pivot is refused again before any other has been committed, the solve ends
with a numeric failure.  After each iteration the signal to stop and the limits are looked at.

The clocks and the signal change outside of a solver.  They enter a turn as a `Reading`, so that a
run is a function of its readings, and the signal can be raised at any turn.  `run?` lists the
turns of a solve and `solve?` returns its result.  With an iteration limit the number of turns is
bounded by the settings; without one the caller says how many turns to wait.
-/

namespace RevisedSimplex

/-- What a turn sees of the clocks, in nanoseconds, and of the signal to stop. -/
structure Reading where
  /-- The time since the last factorization began. -/
  sinceFactorization : Nat := 0
  /-- The time since the solve began. -/
  sinceStart : Nat := 0
  /-- The value that the signal to stop has been given by then, none if it is still the first. -/
  signal : Option Bool := none

/-- Whether the signal to stop is raised.  Without a signal in the settings it never is. -/
def Reading.stops (reading : Reading) (settings : Settings) : Bool :=
  settings.abort.any fun initial => reading.signal.getD initial

/-- What follows a turn. -/
inductive Verdict where
  /-- Another turn.  The flag says whether a pivot was refused since the last one committed. -/
  | again (recovering : Bool)
  /-- The solve ends with a status. -/
  | conclude (status : Status)
  /-- The solve cannot go on. -/
  | fail (error : Error)

/-- The record of a turn. -/
structure Turn (R F : Type) [Scalar F] where
  /-- The factorization, if one was made. -/
  rebuilt : Option Factorization
  /-- What the step came to, if one was taken. -/
  step : Option (Except Error StepResult)
  verdict : Verdict
  /-- The solver after the turn. -/
  solver : Solver R F
  events : List Event

namespace Solver

variable {R F : Type} [Scalar F] [BasisFactorization R F]

/-! ### Turns -/

/-- Whether to factorize before the next step, and the solver after that decision. -/
def factorizationDue (solver : Solver R F) (reading : Reading) : Bool × Solver R F :=
  if solver.iterate.current then
    let (due, factorization) := BasisFactorization.mustRefactorize solver.context
      reading.sinceFactorization solver.factorization
    (due, { solver with factorization })
  else (true, solver)

/-- The solver with its basis factorized from scratch. -/
def rebuild? (solver : Solver R F) : Option (Outcome (Solver R F) Factorization) := do
  let outcome ← solver.iterate.refactorize? solver.context solver.model solver.factorization
  let (iterate, factorization) := outcome.state
  let counters :=
    { solver.counters with
      refactorizations := solver.counters.refactorizations + 1
      singularities := solver.counters.singularities + outcome.result.singular.length }
  some
    { result := outcome.result
      state := { solver with iterate, factorization, counters }
      events := outcome.events }

/-- Factorizes the basis if that is due. -/
def prepare? (solver : Solver R F) (reading : Reading) :
    Option (Outcome (Solver R F) (Option Factorization)) :=
  match solver.factorizationDue reading with
  | (false, solver) => some { result := none, state := solver }
  | (true, solver) => do
      let outcome ← solver.rebuild?
      some { result := some outcome.result, state := outcome.state, events := outcome.events }

/-- The status of a solve that has to stop after an iteration.  The signal comes before the time,
and the time before the number of iterations. -/
def interruption? (solver : Solver R F) (reading : Reading) : Option Status :=
  if reading.stops solver.settings then some .userAbort
  else if solver.settings.timeLimit.any fun limit => limit ≤ reading.sinceStart then some .timeout
  else if solver.settings.iterationLimit.any fun limit => limit ≤ solver.iterate.nrIterations then
    some .iterationLimit
  else none

/-- The solver after a refused pivot, with a factorization due unless it already recovers from
another one. -/
def refuse (solver : Solver R F) (recovering : Bool) : Solver R F :=
  let counted :=
    { solver with
      counters := { solver.counters with numericFailures := solver.counters.numericFailures + 1 } }
  if recovering then counted
  else
    { counted with
      factorization := BasisFactorization.forceRefactorization counted.factorization }

/-- What follows a step that came to a result. -/
def verdictAfter (solver : Solver R F) (reading : Reading) (recovering : Bool) :
    StepResult → Verdict
  | .done status => .conclude status
  | .iterated kind =>
      match solver.interruption? reading with
      | some status => .conclude status
      | none => .again (recovering && kind != .majorPivot)

/-- Takes a step, and decides what follows. -/
def stepTurn? (solver : Solver R F) (reading : Reading) (recovering : Bool)
    (rebuilt : Option Factorization) (earlier : List Event) : Option (Turn R F) := do
  let outcome ← solver.step?
  let step := some outcome.result
  let events := earlier ++ outcome.events
  match outcome.result with
  | .ok result =>
      some
        { rebuilt, step, events
          verdict := outcome.state.verdictAfter reading recovering result
          solver := outcome.state }
  | .error (.numericFailure row index value) =>
      let solver := outcome.state.refuse recovering
      if recovering then
        some
          { rebuilt, step, solver
            verdict := .conclude .numericFailure
            events := events ++ [.unrecovered row index value] }
      else some { rebuilt, step, solver, events, verdict := .again true }
  | .error e => some { rebuilt, step, events, verdict := .fail e, solver := outcome.state }

/-- One turn of a solve.  Singular columns end it at once if the settings say so. -/
def turn? (solver : Solver R F) (reading : Reading) (recovering : Bool) :
    Option (Turn R F) := do
  let prepared ← solver.prepare? reading
  let singular := prepared.result.any fun factorization => !factorization.singular.isEmpty
  if singular && prepared.state.settings.singularPolicy == .fail then
    some
      { rebuilt := prepared.result
        step := none
        verdict := .conclude .infeasible
        solver := prepared.state
        events := prepared.events }
  else prepared.state.stepTurn? reading recovering prepared.result prepared.events

/-! ### Solves -/

/-- The turns of a solve, at most `budget` of them.  Turn `i` sees reading `i`. -/
def run? (readings : Nat → Reading) : (budget : Nat) → (i : Nat) → (recovering : Bool) →
    Solver R F → Option (List (Turn R F))
  | 0, _, _, _ => some []
  | budget + 1, i, recovering, solver => do
      let turn ← solver.turn? (readings i) recovering
      match turn.verdict with
      | .again recovering =>
          let later ← run? readings budget (i + 1) recovering turn.solver
          some (turn :: later)
      | _ => some [turn]

/-- The number of turns after which a solve has ended.  Each iteration that is left is preceded by
at most one refused pivot, and one turn more finds the status. -/
def turnBudget (solver : Solver R F) (patience : Nat) : Nat :=
  match solver.settings.iterationLimit with
  | some limit => 2 * Nat.max 1 (limit - solver.iterate.nrIterations) + 2
  | none => patience

/-- The end of a solve. -/
inductive SolveEnd (F : Type) where
  /-- The solve has come to a status. -/
  | solved (result : SolveResult F)
  /-- The solve could not go on. -/
  | failed (error : Error)
  /-- The solve has not ended within the turns that it was given. -/
  | unfinished

/-- The event of the end of a solve. -/
def solvedEvent (result : SolveResult F) : Event :=
  .solved result.status (Scalar.toFloat result.objective) result.statistics.nrIterations
    result.statistics.counters.refactorizations

/-- The end of a solve with the given turns, which started from the given solver. -/
def finish? (start : Solver R F) (turns : List (Turn R F)) :
    Option (Outcome (Solver R F) (SolveEnd F)) :=
  let events := turns.flatMap Turn.events
  match turns.getLast? with
  | none => some { result := .unfinished, state := start, events }
  | some last =>
      match last.verdict with
      | .again _ => some { result := .unfinished, state := last.solver, events }
      | .fail e => some { result := .failed e, state := last.solver, events }
      | .conclude status => do
          let result ← last.solver.result? status
          some
            { result := .solved result
              state := last.solver
              events := events ++ [solvedEvent result] }

/-- Solves the model from the current basis.  Without an iteration limit it takes at most
`patience` turns. -/
def solve? (solver : Solver R F) (readings : Nat → Reading) (patience : Nat) :
    Option (Outcome (Solver R F) (SolveEnd F)) := do
  let turns ← run? readings (solver.turnBudget patience) 0 false solver
  solver.finish? turns

end Solver

end RevisedSimplex
