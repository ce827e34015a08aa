import RevisedSimplex.Pricing
import RevisedSimplex.ProductForm

/-!
# Solvers

A `Solver` holds a model and settings together with everything that changes during a solve: the
factorization, the iterate and the counters.  It starts from the basis of all slacks unless
another basis is set, and keeps its last basis from one solve to the next.  `Solver.result?` reads
off the values that it has come to.
-/

namespace RevisedSimplex

/-- What a solver counts besides the iterations by kind. -/
structure SolverCounters where
  dualIterations : Nat := 0
  primalIterations : Nat := 0
  /-- The number of factorizations from scratch. -/
  refactorizations : Nat := 0
  /-- The number of columns that these have left out. -/
  singularities : Nat := 0
  /-- The number of pivots that were refused. -/
  numericFailures : Nat := 0
  /-- The number of primal pivots with a step length within the primal tolerance. -/
  degeneratePivots : Nat := 0

/-- The counters of a solver, and the size of its factorization. -/
structure Statistics where
  counters : SolverCounters
  majorPivots : Nat
  boundFlips : Nat
  etaNonzeros : Nat
  etaLength : Nat

/-- The number of iterations of both kinds. -/
def Statistics.nrIterations (statistics : Statistics) : Nat :=
  statistics.majorPivots + statistics.boundFlips

/-- What a solve has found. -/
structure SolveResult (F : Type) where
  status : Status
  /-- The objective in the direction of the goal of the model. -/
  objective : F
  /-- The values of the structural variables. -/
  structural : List F
  /-- The values of the slacks. -/
  slack : List F
  /-- The values of the basic variables by position. -/
  values : DenseVector F
  /-- Whether all basic variables are within their bounds. -/
  feasible : Bool
  statistics : Statistics

/-- A model on its way to a solution. -/
structure Solver (R F : Type) [Scalar F] where
  model : Model F
  settings : Settings
  context : Context F
  pricing : PricingRule F
  factorization : R
  iterate : Iterate F
  counters : SolverCounters := {}

namespace Solver

variable {R F : Type} [Scalar F] [BasisFactorization R F]

/-! ### Making a solver -/

/-- A solver that is about to start from the basis of all slacks. -/
def start (model : Model F) (settings : Settings) (context : Context F) (factorization : R)
    (pricing : PricingRule F) : Solver R F :=
  { model, settings, context, pricing, factorization
    iterate := .start (Basis.slack model) }

/-- A solver with a given factorization and pricing rule, if the settings are in range. -/
def withComponents (model : Model F) (settings : Settings) (factorization : R)
    (pricing : PricingRule F) : Except Error (Solver R F) := do
  let context ← Context.ofSettings settings
  .ok (start model settings context factorization pricing)

/-- A solver with the product form of the inverse and Dantzig pricing. -/
def new (model : Model F) (settings : Settings) : Except Error (Solver (ProductForm F) F) :=
  withComponents model settings (ProductForm.identity model.nrRows) .dantzig

/-- The current basis. -/
def basis (solver : Solver R F) : Basis :=
  solver.iterate.basis

/-- The solver started from another basis, which has to have the size of the model.  That its
positions match its basic variables is not checked here: a `Basis` carries the proof. -/
def setBasis (solver : Solver R F) (basis : Basis) : Except Error (Solver R F) :=
  if basis.nrRows ≠ solver.model.nrRows then
    .error (.dimensionMismatch .basisRows solver.model.nrRows basis.nrRows)
  else if basis.nrVariables ≠ solver.model.nrVariables then
    .error (.dimensionMismatch .basisVariables solver.model.nrVariables basis.nrVariables)
  else .ok
    { solver with
      iterate := { solver.iterate with basis, current := false }
      factorization := BasisFactorization.forceRefactorization solver.factorization }

/-! ### Reading a solver -/

/-- The counters over all solves of the solver. -/
def statistics (solver : Solver R F) : Statistics where
  counters := solver.counters
  majorPivots := solver.iterate.majorPivots
  boundFlips := solver.iterate.boundFlips
  etaNonzeros := BasisFactorization.nrNonzeros solver.factorization
  etaLength := BasisFactorization.etaLength solver.factorization

/-- The objective in the direction of the goal of the model. -/
def objective (solver : Solver R F) : F :=
  match solver.model.goal with
  | .minimize => solver.iterate.objective
  | .maximize => -solver.iterate.objective

/-- The values that the solver has come to, with a status. -/
def result? (solver : Solver R F) (status : Status) : Option (SolveResult F) := do
  let m := solver.model.nrRows
  let value? := solver.iterate.value? solver.model
  let structural ← (List.range' (m + 1) solver.model.nrColumns).mapM value?
  let slack ← (List.range' 1 m).mapM value?
  let feasible ← solver.iterate.isFeasible? solver.context.tolerances solver.model
  some
    { status, structural, slack, feasible
      objective := solver.objective
      values := solver.iterate.values
      statistics := solver.statistics }

end Solver

end RevisedSimplex
