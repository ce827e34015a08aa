import RevisedSimplex.SparseVector

/-!
# Eta columns

An elementary matrix is the identity with one column replaced.  An `EtaColumn` is the replaced
column: its pivot row, the entries off the pivot row, the entry at the pivot row, and the variable
it was made for.  `applyRight?` multiplies the matrix with a column vector, `applyLeft?` a row
vector with the matrix, and `applyLeftDouble?` two of them at a time.

A column with pivot `p` and entries `v` is inverted to the one with pivot `1 / p` and entries
`-v / p`, whose matrix takes the column to the unit vector of the pivot row.
-/

namespace RevisedSimplex

/-- One replaced column of an identity matrix. -/
structure EtaColumn (F : Type) where
  /-- The row of the pivot, and the place of the column. -/
  pivotRow : Nat
  /-- The variable that the column was made for. -/
  owner : Nat
  /-- The entries in the other rows. -/
  offPivot : SparseVector F
  /-- The entry in the pivot row. -/
  pivot : F

namespace EtaColumn

variable {F : Type}

/-- The entries in the order in which they are stored, the one in the pivot row last. -/
def stored (column : EtaColumn F) : SparseVector F :=
  column.offPivot ++ [(column.pivotRow, column.pivot)]

/-- The column with the given stored entries. -/
def ofStored? (owner : Nat) (entries : SparseVector F) : Option (EtaColumn F) :=
  entries.getLast?.map fun last =>
    { pivotRow := last.1, owner, offPivot := entries.dropLast, pivot := last.2 }

variable [Scalar F]

/-- A dense column with a given pivot row. -/
def ofDense? (column : DenseVector F) (pivotRow owner : Nat) : Option (EtaColumn F) := do
  let pivot ← column[pivotRow]?
  let offPivot := (SparseVector.nonzeros column).filter fun entry => entry.1 != pivotRow
  some { pivotRow, owner, offPivot, pivot }

/-- A sparse column with a given pivot row, its pivot being zero if it has no entry there. -/
def ofSparse? (column : SparseVector F) (pivotRow owner : Nat) : Option (EtaColumn F) :=
  if column.Ordered then some
    { pivotRow, owner
      offPivot := column.filter fun entry => entry.1 != pivotRow && !(entry.2 == 0)
      pivot := (column.valueAt? pivotRow).getD 0 }
  else none

/-- The column with the opposite sign. -/
def negate (column : EtaColumn F) : EtaColumn F :=
  { column with
    offPivot := column.offPivot.map fun entry => (entry.1, -entry.2)
    pivot := -column.pivot }

/-- The column whose matrix takes the given column to the unit vector of its pivot row. -/
def invert? (column : EtaColumn F) : Option (EtaColumn F) :=
  if column.pivot == 0 then none
  else
    let inverse := 1 / column.pivot
    let factor := -inverse
    some
      { column with
        offPivot := column.offPivot.map fun entry => (entry.1, entry.2 * factor)
        pivot := inverse }

/-- The matrix of the column times a column vector.  Nothing but the pivot row is looked at when
the vector is zero there. -/
def applyRight? (column : EtaColumn F) (vector : DenseVector F) : Option (DenseVector F) := do
  let theta ← vector[column.pivotRow]?
  if theta == 0 then some vector
  else
    let moved ← column.offPivot.foldlM
      (fun (v : DenseVector F) entry => v.modify? entry.1 (· + theta * entry.2)) vector
    moved.set? column.pivotRow (theta * column.pivot)

/-- The inner product of a row vector with the column. -/
def inner? (column : EtaColumn F) (vector : DenseVector F) : Option F := do
  let total ← column.offPivot.inner? vector
  let last ← vector[column.pivotRow]?
  some (total + last * column.pivot)

/-- A row vector times the matrix of the column. -/
def applyLeft? (column : EtaColumn F) (vector : DenseVector F) : Option (DenseVector F) := do
  let total ← column.inner? vector
  vector.set? column.pivotRow total

/-- The inner products of two row vectors with the column, in one pass over its entries.  Both are
counted up from zero. -/
def innerDouble? (column : EtaColumn F) (first second : DenseVector F) : Option (F × F) :=
  column.stored.foldlM (fun totals entry => do
    let firstValue ← first[entry.1]?
    let secondValue ← second[entry.1]?
    some (totals.1 + firstValue * entry.2, totals.2 + secondValue * entry.2)) (0, 0)

/-- Two row vectors times the matrix of the column. -/
def applyLeftDouble? (column : EtaColumn F) (first second : DenseVector F) :
    Option (DenseVector F × DenseVector F) := do
  let (firstTotal, secondTotal) ← column.innerDouble? first second
  let first ← first.set? column.pivotRow firstTotal
  let second ← second.set? column.pivotRow secondTotal
  some (first, second)

end EtaColumn

end RevisedSimplex
