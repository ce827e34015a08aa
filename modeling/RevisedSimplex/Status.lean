/-!
# Statuses

A `Status` says how a solve came to its end.  Only `optimal` comes with an optimal solution, and
`timeout`, `userAbort` and `iterationLimit` leave a solve that can be taken up again.
-/

namespace RevisedSimplex

/-- How a solve ended. -/
inductive Status where
  /-- No direction improves on a feasible basis. -/
  | optimal
  /-- An improving direction meets no bound. -/
  | unbounded
  /-- No point satisfies all bounds and constraints. -/
  | infeasible
  /-- A pivot was too small, against a fresh factorization too. -/
  | numericFailure
  /-- The time was over. -/
  | timeout
  /-- The signal to stop was set. -/
  | userAbort
  /-- The number of iterations was reached. -/
  | iterationLimit
deriving DecidableEq, Repr

namespace Status

/-- The name of a status. -/
def name : Status → String
  | optimal => "optimal"
  | unbounded => "unbounded"
  | infeasible => "infeasible"
  | numericFailure => "numeric failure"
  | timeout => "timeout"
  | userAbort => "user abort"
  | iterationLimit => "iteration limit"

/-- Whether the solution is optimal. -/
def isOptimal (status : Status) : Bool :=
  status == optimal

/-- Whether the solve found nothing out about the model. -/
def isFailure (status : Status) : Bool :=
  status == numericFailure

end Status

end RevisedSimplex
