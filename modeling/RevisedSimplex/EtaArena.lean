import RevisedSimplex.EtaColumn

/-!
# Eta arenas

An `EtaArena` stores the columns of a product `E_k ... E_1` of elementary matrices one after the
other, the rows of all entries in one list and their values in another.  Of each column only the
end is kept: it starts where the one before it ends, and its last entry is its pivot.

A column is staged behind the end of the committed ones.  Committing it inverts the values there in
place and records the new end; discarding it cuts the arena off at the old one.  The columns
committed before `markFactorEnd?` make up a factorization, those after it are updates.
-/

namespace RevisedSimplex

/-- Eta columns stored one after the other. -/
structure EtaArena (F : Type) where
  /-- The rows of the entries. -/
  rows : List Nat := []
  /-- The values of the entries. -/
  values : List F := []
  /-- Where each committed column ends. -/
  columnEnds : List Nat := []
  /-- The variable that each committed column was made for. -/
  owners : List Nat := []
  /-- The number of columns that belong to the factorization. -/
  factorColumns : Nat := 0
  /-- The variable of the staged column, if there is one. -/
  stagedOwner : Option Nat := none

namespace EtaArena

variable {F : Type}

/-! ### Reading -/

/-- Where the committed columns end. -/
def committedEnd (arena : EtaArena F) : Nat :=
  arena.columnEnds.getLastD 0

/-- Where a committed column starts and where it ends. -/
def range? (arena : EtaArena F) (k : Nat) : Option (Nat × Nat) := do
  let start ← (0 :: arena.columnEnds)[k]?
  let stop ← arena.columnEnds[k]?
  some (start, stop)

/-- The entries from one offset up to another. -/
def entries (arena : EtaArena F) (start stop : Nat) : SparseVector F :=
  ((arena.rows.take stop).zip (arena.values.take stop)).drop start

/-- A committed column. -/
def column? (arena : EtaArena F) (k : Nat) : Option (EtaColumn F) := do
  let (start, stop) ← arena.range? k
  let owner ← arena.owners[k]?
  EtaColumn.ofStored? owner (arena.entries start stop)

/-- The staged column, as it was staged. -/
def staged (arena : EtaArena F) : Option (EtaColumn F) := do
  let owner ← arena.stagedOwner
  EtaColumn.ofStored? owner (arena.entries arena.committedEnd arena.values.length)

/-- The pivot row and the variable of a committed column. -/
def pivot? (arena : EtaArena F) (k : Nat) : Option (Nat × Nat) := do
  let (_, stop) ← arena.range? k
  let row ← arena.rows[stop - 1]?
  let owner ← arena.owners[k]?
  some (row, owner)

/-! ### Sizes -/

/-- The number of committed columns. -/
def nrColumns (arena : EtaArena F) : Nat :=
  arena.columnEnds.length

/-- The number of columns committed since the factorization. -/
def nrUpdates (arena : EtaArena F) : Nat :=
  arena.nrColumns - arena.factorColumns

/-- The number of entries of the committed columns. -/
def nrNonzeros (arena : EtaArena F) : Nat :=
  arena.committedEnd

/-- Whether a column is staged. -/
def isStaged (arena : EtaArena F) : Bool :=
  arena.stagedOwner.isSome

/-! ### Growing -/

/-- The arena without a staged column. -/
def discardStaged (arena : EtaArena F) : EtaArena F :=
  { arena with
    rows := arena.rows.take arena.committedEnd
    values := arena.values.take arena.committedEnd
    stagedOwner := none }

/-- The arena with another column staged, in the place of one that was staged before. -/
def stage (arena : EtaArena F) (column : EtaColumn F) : EtaArena F :=
  let kept := arena.discardStaged
  { kept with
    rows := kept.rows ++ column.stored.map Prod.fst
    values := kept.values ++ column.stored.map Prod.snd
    stagedOwner := some column.owner }

variable [Scalar F]

/-- Whether a column was staged, and the arena with the inverse of that column committed, or of its
negation if `flip` holds.  A pivot of zero cannot be committed. -/
def commit? (arena : EtaArena F) (flip : Bool) : Option (Bool × EtaArena F) :=
  match arena.stagedOwner with
  | none => some (false, arena)
  | some owner => do
      let start := arena.committedEnd
      let stop := arena.values.length
      let column ← EtaColumn.ofStored? owner (arena.entries start stop)
      let inverted ← (if flip then column.negate else column).invert?
      some (true,
        { arena with
          values := arena.values.take start ++ inverted.stored.map Prod.snd
          columnEnds := arena.columnEnds ++ [stop]
          owners := arena.owners ++ [owner]
          stagedOwner := none })

omit [Scalar F] in
/-- The arena with all its columns counted to the factorization.  No column may be staged. -/
def markFactorEnd? (arena : EtaArena F) : Option (EtaArena F) :=
  if arena.isStaged then none else some { arena with factorColumns := arena.nrColumns }

/-! ### Solving -/

/-- The product of the columns times a column vector. -/
def applyRight? (arena : EtaArena F) (vector : DenseVector F) : Option (DenseVector F) :=
  (List.range arena.nrColumns).foldlM
    (fun v k => do
      let column ← arena.column? k
      column.applyRight? v)
    vector

/-- A row vector times the product of the columns. -/
def applyLeft? (arena : EtaArena F) (vector : DenseVector F) : Option (DenseVector F) :=
  (List.range arena.nrColumns).reverse.foldlM
    (fun v k => do
      let column ← arena.column? k
      column.applyLeft? v)
    vector

/-- Two row vectors times the product of the columns, in one pass over them. -/
def applyLeftDouble? (arena : EtaArena F) (first second : DenseVector F) :
    Option (DenseVector F × DenseVector F) :=
  (List.range arena.nrColumns).reverse.foldlM
    (fun pair k => do
      let column ← arena.column? k
      column.applyLeftDouble? pair.1 pair.2)
    (first, second)

end EtaArena

end RevisedSimplex
