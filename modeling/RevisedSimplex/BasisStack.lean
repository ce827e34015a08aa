import RevisedSimplex.Basis

/-!
# Stacks of bases

Subproblems that differ in a few bounds are best started from the basis of the problem they come
from.  A `BasisStack` keeps such bases.  Restoring gives a copy of the top one in place of a
current basis, which has to be of the same number of variables, or leaves the current basis as it
is when the stack is empty.
-/

namespace RevisedSimplex

/-- Stored bases, the last one first. -/
structure BasisStack where
  snapshots : List Basis := []

namespace BasisStack

/-- The number of stored bases. -/
def level (stack : BasisStack) : Nat :=
  stack.snapshots.length

/-- The basis stored last. -/
def top? (stack : BasisStack) : Option Basis :=
  stack.snapshots.head?

/-- The stack with a basis on top. -/
def push (stack : BasisStack) (basis : Basis) : BasisStack :=
  ⟨basis :: stack.snapshots⟩

/-- The stack without its top. -/
def pop (stack : BasisStack) : BasisStack :=
  ⟨stack.snapshots.tail⟩

/-- Whether there is a basis to restore, and the basis after restoring. -/
def restore? (stack : BasisStack) (current : Basis) : Option (Bool × Basis) :=
  match stack.top? with
  | none => some (false, current)
  | some top =>
      if top.nrVariables = current.nrVariables then some (true, top) else none

/-- Whether a basis was removed and the one below it restored, and the stack and the basis
afterwards. -/
def popAndRestore? (stack : BasisStack) (current : Basis) : Option (Bool × BasisStack × Basis) :=
  match stack.top? with
  | none => some (false, stack, current)
  | some _ => do
      let (restored, basis) ← stack.pop.restore? current
      some (restored, stack.pop, basis)

/-- Whether a basis is the top one up to the order of its basic variables. -/
def isSameAsTop (stack : BasisStack) (basis : Basis) : Bool :=
  stack.top?.any fun top => top.sameAs basis

theorem top?_push (stack : BasisStack) (basis : Basis) :
  (stack.push basis).top? = some basis
  := rfl

theorem pop_push (stack : BasisStack) (basis : Basis) :
  (stack.push basis).pop = stack
  := rfl

end BasisStack

end RevisedSimplex
