import RevisedSimplex.Status

/-!
# Events

What is worth noting while a basis is factorized and a model is solved.  Operations return their
events in order: an `Outcome` is a result together with the state after the operation and the
events during it.  Numbers are reported as doubles.
-/

namespace RevisedSimplex

/-- The two kinds of iterations. -/
inductive IterationKind where
  /-- A variable takes the place of another one in the basis. -/
  | majorPivot
  /-- A variable goes from one bound to the other, and the basis stays. -/
  | boundFlip
deriving DecidableEq, Repr

/-- Something that happened. -/
inductive Event where
  /-- A basis was factorized. -/
  | factorized (rows structurals singletons etaColumns nonzeros singularities : Nat)
  /-- A column was left out of the basis. -/
  | singularColumn (index : Nat)
  /-- A pivot was refused. -/
  | pivotRefused (row index : Nat) (value : Float)
  /-- A change of basis was committed. -/
  | updateCommitted (row index etaLength nonzeros : Nat)
  /-- An iteration was performed.  The objective is that of the minimization afterwards. -/
  | iterated (kind : IterationKind) (primal : Bool) (entering : Nat) (leavingRow : Option Nat)
      (theta objective : Float)
  /-- A pivot was refused against a fresh factorization. -/
  | unrecovered (row index : Nat) (value : Float)
  /-- A solve came to its end. -/
  | solved (status : Status) (objective : Float) (iterations refactorizations : Nat)

/-- What an operation on a state leads to. -/
structure Outcome (State Result : Type) where
  /-- The result of the operation. -/
  result : Result
  /-- The state after the operation. -/
  state : State
  /-- The events during the operation, in order. -/
  events : List Event := []

end RevisedSimplex
