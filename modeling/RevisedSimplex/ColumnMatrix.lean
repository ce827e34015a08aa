import RevisedSimplex.SparseVector
import RevisedSimplex.Decimal.Text

/-!
# Column matrices

A `ColumnMatrix` stores a matrix by its columns, each a sparse vector with increasing rows and
without zeros, since a column is what the method brings into the basis.  `ofRows?` builds one from
dense rows, `get?` reads an entry back, `text` writes all entries in a table.
-/

namespace RevisedSimplex

namespace SparseVector

variable {F : Type} [Scalar F]

/-- The positions increase and lie below `size`, and no entry is zero. -/
def Proper (size : Nat) (vector : SparseVector F) : Prop :=
  vector.Ordered ∧ vector.all (fun entry => decide (entry.1 < size) && !(entry.2 == 0)) = true

instance (size : Nat) (vector : SparseVector F) : Decidable (vector.Proper size) :=
  inferInstanceAs (Decidable (_ ∧ _))

end SparseVector

/-- A matrix given by its columns. -/
structure ColumnMatrix (F : Type) [Scalar F] where
  /-- The columns, from left to right. -/
  columns : List (SparseVector F)
  /-- The number of rows. -/
  nrRows : Nat
  /-- Rows increase within a column, no row is out of range, and no zero is stored. -/
  proper : ∀ column ∈ columns, column.Proper nrRows

namespace ColumnMatrix

variable {F : Type} [Scalar F]

/-- The matrix with the given columns, if they are in order and fit into the rows. -/
def ofColumns? (columns : List (SparseVector F)) (nrRows : Nat) : Option (ColumnMatrix F) :=
  if h : columns.all (fun column => decide (column.Proper nrRows)) = true then
    some ⟨columns, nrRows, fun column hc => of_decide_eq_true (List.all_eq_true.mp h column hc)⟩
  else none

/-- The matrix with the given rows, if each of them has `nrColumns` entries. -/
def ofRows? (rows : List (DenseVector F)) (nrColumns : Nat) : Option (ColumnMatrix F) :=
  if rows.all fun row => row.length == nrColumns then
    let column (j : Nat) := SparseVector.nonzeros (rows.filterMap fun row => row[j]?)
    ofColumns? ((List.range nrColumns).map column) rows.length
  else none

/-- The number of columns. -/
def nrColumns (matrix : ColumnMatrix F) : Nat :=
  matrix.columns.length

/-- The number of entries that are not zero. -/
def nrNonzeros (matrix : ColumnMatrix F) : Nat :=
  matrix.columns.foldl (fun total column => total + column.length) 0

/-- The entry in a row and a column. -/
def get? (matrix : ColumnMatrix F) (row column : Nat) : Option F := do
  let entries ← matrix.columns[column]?
  if row < matrix.nrRows then some ((entries.valueAt? row).getD 0) else none

/-- The dense row of an index. -/
def row (matrix : ColumnMatrix F) (row : Nat) : DenseVector F :=
  matrix.columns.map fun column => (column.valueAt? row).getD 0

/-- All rows from top to bottom, as dense vectors. -/
def rows (matrix : ColumnMatrix F) : List (DenseVector F) :=
  (List.range matrix.nrRows).map matrix.row

/-- A table with a line for each row.  Each entry has three places and a blank behind it, and is
at least eight characters wide. -/
def text (matrix : ColumnMatrix F) : String :=
  let entry (value : F) := Decimal.fixed 3 8 (Scalar.toFloat value) ++ " "
  String.join (matrix.rows.map fun row => String.join (row.map entry) ++ "\n")

end ColumnMatrix

end RevisedSimplex
