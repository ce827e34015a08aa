import RevisedSimplex.BasisStack
import RevisedSimplex.Solver.Run

/-!
# Sessions

A `Session` explores subproblems of one model that differ in bounds.  It keeps the model as it is
now, a current basis and a stack of bases.  Each solve is made by a new solver, which starts from
the current basis and leaves its last basis behind.
-/

namespace RevisedSimplex

/-- A model with a current basis and stored ones. -/
structure Session (F : Type) [Scalar F] where
  model : Model F
  basis : Basis
  stack : BasisStack := {}

namespace Session

variable {F : Type} [Scalar F]

/-- A session that starts from the basis of all slacks. -/
def start (model : Model F) : Session F :=
  { model, basis := Basis.slack model }

/-- The session with the basis of all slacks for the bounds as they are now. -/
def reset (session : Session F) : Session F :=
  { session with basis := Basis.slack session.model }

/-- The session after the current basis was stored. -/
def push (session : Session F) : Session F :=
  { session with stack := session.stack.push session.basis }

/-- The basis that was stored last, and the session without it. -/
def pop (session : Session F) : Option Basis × Session F :=
  (session.stack.top?, { session with stack := session.stack.pop })

/-- Takes a copy of the top basis, if there is one. -/
def restore? (session : Session F) : Option (Bool × Session F) := do
  let (restored, basis) ← session.stack.restore? session.basis
  some (restored, { session with basis })

/-- Drops the top basis and takes a copy of the one below it, if both are there. -/
def popAndRestore? (session : Session F) : Option (Bool × Session F) := do
  let (restored, stack, basis) ← session.stack.popAndRestore? session.basis
  some (restored, { session with stack, basis })

/-- The session with a new solver that is about to start from the current basis. -/
def solver (session : Session F) (settings : Settings) :
    Except Error (Solver (ProductForm F) F) := do
  let solver ← Solver.new session.model settings
  solver.setBasis session.basis

/-- Solves the model as it is now from the current basis.  The current basis afterwards is the
one that the solve has come to. -/
def solve? (session : Session F) (settings : Settings) (readings : Nat → Reading)
    (patience : Nat) : Option (Outcome (Session F) (Solver.SolveEnd F)) :=
  match session.solver settings with
  | .error e => some { result := .failed e, state := session }
  | .ok solver => do
      let outcome ← solver.solve? readings patience
      some
        { result := outcome.result
          state := { session with basis := outcome.state.basis }
          events := outcome.events }

end Session

end RevisedSimplex
