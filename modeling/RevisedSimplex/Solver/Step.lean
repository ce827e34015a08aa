import RevisedSimplex.RatioTest
import RevisedSimplex.Solver.Basic

/-!
# Steps of a solver

From a feasible basis a step is a primal one: a variable that improves the objective enters, and
the primal ratio test finds the row that blocks it.  From an infeasible basis it is a dual one: a
row that violates its bounds leaves, and the dual ratio test finds the variable that enters.
Either carries out one iteration or finds the status of the model.
-/

namespace RevisedSimplex

/-- What a step comes to. -/
inductive StepResult where
  /-- An iteration was carried out. -/
  | iterated (kind : IterationKind)
  /-- The model has turned out to be of a status. -/
  | done (status : Status)

namespace Solver

variable {R F : Type} [Scalar F] [BasisFactorization R F]

/-- An outcome that leaves the solver as it is. -/
def conclude (solver : Solver R F) (status : Status) :
    Outcome (Solver R F) (Except Error StepResult) where
  result := .ok (.done status)
  state := solver

/-- Counts an iteration by method. -/
def countIteration (primal : Bool) (counters : SolverCounters) : SolverCounters :=
  if primal then { counters with primalIterations := counters.primalIterations + 1 }
  else { counters with dualIterations := counters.dualIterations + 1 }

/-! ### Pivots -/

/-- Stages an exchange in the factorization, unless the step is a bound flip. -/
def stage? (solver : Solver R F) (leavingRow : Option Nat) (entering : Nat) (theta : F)
    (primal : Bool) : Option (Outcome R (Option Error)) := do
  let flips ← Iterate.isBoundFlip? solver.context.tolerances solver.model leavingRow entering
    theta primal
  match leavingRow with
  | some row =>
      if flips then some { result := none, state := solver.factorization }
      else do
        let staged ← BasisFactorization.prepareUpdate? solver.context row entering
          solver.iterate.pivotColumn solver.factorization
        let refusal := match staged.result with
          | .ok _ => none
          | .error e => some e
        some { result := refusal, state := staged.state, events := staged.events }
  | none => some { result := none, state := solver.factorization }

/-- Performs an iteration with the current pivot column. -/
def pivot? (solver : Solver R F) (leavingRow : Option Nat) (entering : Nat) (theta : F)
    (primal : Bool) : Option (Outcome (Solver R F) (Except Error IterationKind)) := do
  let staged ← solver.stage? leavingRow entering theta primal
  match staged.result with
  | some e =>
      some
        { result := .error e
          state := { solver with factorization := staged.state }
          events := staged.events }
  | none =>
      let performed ← solver.iterate.perform? solver.context solver.model staged.state leavingRow
        entering theta primal
      let counters := match performed.result with
        | .ok _ => countIteration primal solver.counters
        | .error _ => solver.counters
      some
        { result := performed.result
          state :=
            { solver with
              iterate := performed.state.1
              factorization := performed.state.2
              counters }
          events := staged.events ++ performed.events }

/-! ### Primal steps -/

/-- The solver with the solved column of a candidate, and whether that candidate is likely to be
blocked at once. -/
def consider? (solver : Solver R F) (candidate : Candidate F) : Option (Solver R F × Bool) := do
  let iterate ← solver.iterate.loadColumn? solver.context solver.model solver.factorization
    candidate.index
  let degenerate ← iterate.isDegenerate? solver.context.tolerances solver.model
    iterate.pivotColumn candidate.direction
  some ({ solver with iterate }, degenerate)

/-- The first candidate that is not likely to be blocked, offering the rest to the pricing rule a
number of times. -/
def findAlternative? (solver : Solver R F) : (retries : Nat) → List (Candidate F) →
    Option (Option (Candidate F × Solver R F))
  | 0, _ => some none
  | retries + 1, candidates =>
      match solver.pricing.selectEntering candidates with
      | none => some none
      | some place => do
          let candidate ← candidates[place]?
          let (loaded, degenerate) ← solver.consider? candidate
          if degenerate then findAlternative? loaded retries (candidates.eraseIdx place)
          else some (some (candidate, loaded))

/-- The candidate at a place, or another one if that is likely to be blocked and the other is not.
Its solved column is the pivot column afterwards. -/
def avoidDegeneracy? (solver : Solver R F) (candidates : List (Candidate F)) (place : Nat) :
    Option (Candidate F × Solver R F) := do
  let chosen ← candidates[place]?
  let (loaded, degenerate) ← solver.consider? chosen
  if degenerate then
    match ← loaded.findAlternative? solver.settings.degeneracyRetries
        (candidates.eraseIdx place) with
    | some found => some found
    | none => do
        let (reloaded, _) ← solver.consider? chosen
        some (chosen, reloaded)
  else some (chosen, loaded)

/-- The rows with their entries of the pivot column. -/
def pivotEntries? (solver : Solver R F) : Option (List (PivotEntry F)) := do
  let rows ← solver.iterate.rows? solver.model
  some (List.zipWith PivotEntry.mk rows (solver.iterate.pivotColumn.drop 1))

/-- Counts a degenerate pivot: a major one with a step length within the primal tolerance. -/
def countDegenerate (kind : IterationKind) (step : Option F) (solver : Solver R F) :
    Solver R F :=
  let within := step.any fun step => step ≤ solver.context.tolerances.primal
  if kind = .majorPivot ∧ within then
    { solver with
      counters :=
        { solver.counters with degeneratePivots := solver.counters.degeneratePivots + 1 } }
  else solver

/-- Lets a candidate enter whose column is the pivot column. -/
def enter? (solver : Solver R F) (candidate : Candidate F) :
    Option (Outcome (Solver R F) (Except Error StepResult)) := do
  let entries ← solver.pivotEntries?
  let blocking := primalRatioTest? solver.context.tolerances candidate.direction entries
  let bounds ← solver.model.bounds? candidate.index
  match (blocking.map Prod.snd).or bounds.finiteRange? with
  | none => some (solver.conclude .unbounded)
  | some length =>
      let pivoted ← solver.pivot? (blocking.map Prod.fst) candidate.index
        (candidate.direction * length) true
      let (result, state) : Except Error StepResult × Solver R F := match pivoted.result with
        | .ok kind =>
            (.ok (.iterated kind), countDegenerate kind (blocking.map Prod.snd) pivoted.state)
        | .error e => (.error e, pivoted.state)
      some { result, state, events := pivoted.events }

/-- A primal iteration, or the conclusion that the basis is optimal or the model unbounded. -/
def primalStep? (solver : Solver R F) :
    Option (Outcome (Solver R F) (Except Error StepResult)) := do
  let unit ← DenseVector.unit? 0 (solver.model.nrRows + 1)
  let multipliers ← BasisFactorization.btran? solver.context solver.factorization unit
  let movable ← solver.iterate.movable? solver.context.tolerances solver.model
  let candidates ← Candidate.list? solver.context.tolerances multipliers movable
  match solver.pricing.selectEntering candidates with
  | none => some (solver.conclude .optimal)
  | some place =>
      let (candidate, loaded) ← solver.avoidDegeneracy? candidates place
      loaded.enter? candidate

/-! ### Dual steps -/

/-- The step of an entering variable that takes the leaving row to its bound, zero if that is
against the direction of the variable. -/
def dualStepLength (tolerances : Tolerances F) (direction alpha : F) (row : BasicRow F) : F :=
  let theta := row.repairStep tolerances 0 alpha
  if theta * direction < 0 then 0 else theta

/-- Lets a variable enter for a row that violates a bound. -/
def repair? (solver : Solver R F) (row : BasicRow F) (entering : Eligible F) :
    Option (Outcome (Solver R F) (Except Error StepResult)) := do
  let iterate ← solver.iterate.loadColumn? solver.context solver.model solver.factorization
    entering.index
  let alpha ← iterate.pivotColumn[row.position]?
  let theta := dualStepLength solver.context.tolerances entering.direction alpha row
  let pivoted ← { solver with iterate }.pivot? (some row.position) entering.index theta false
  some
    { result := pivoted.result.map StepResult.iterated
      state := pivoted.state
      events := pivoted.events }

/-- A dual iteration, or the conclusion that the model is infeasible.  Without a row to leave it is
a primal step. -/
def dualStep? (solver : Solver R F) :
    Option (Outcome (Solver R F) (Except Error StepResult)) := do
  let tolerances := solver.context.tolerances
  let violations ← solver.iterate.violations? tolerances solver.model
  match solver.pricing.selectLeaving violations with
  | none => solver.primalStep?
  | some place =>
      let (position, _) ← violations[place]?
      let row ← solver.iterate.row? solver.model position
      let size := solver.model.nrRows + 1
      let (multipliers, pivotRow) ← BasisFactorization.btranDouble? solver.context
        solver.factorization (← DenseVector.unit? 0 size) (← DenseVector.unit? position size)
      let movable ← solver.iterate.movable? tolerances solver.model
      let entries ← PivotRowEntry.list? multipliers pivotRow movable
      let increase := row.bounds.lower.any fun l => row.value < l
      match dualRatioTest? tolerances increase entries with
      | none => some (solver.conclude .infeasible)
      | some entering => solver.repair? row entering

/-- The next step: a primal one from a feasible basis, and a dual one from any other. -/
def step? (solver : Solver R F) :
    Option (Outcome (Solver R F) (Except Error StepResult)) := do
  if ← solver.iterate.isFeasible? solver.context.tolerances solver.model then solver.primalStep?
  else solver.dualStep?

end Solver

end RevisedSimplex
