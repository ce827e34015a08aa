import RevisedSimplex.SparseVector

/-!
# Elimination

While a basis is factorized, each row is free until a column is pivoted on in it, and each
candidate column is unassigned until it gets a row or is dropped.  `Elimination` keeps the two
kinds of flags, together with the number of unassigned candidates in each row and of free rows in
each candidate.  A row or column with a count of one is a singleton, and can be pivoted on as it
stands.  The counts are kept up to date: `assign?` and `drop?` lower those that change and return
the rows and columns that have become singletons.
-/

namespace RevisedSimplex

/-- A column that asks for a row. -/
structure CandidateColumn (F : Type) where
  /-- The variable of the column. -/
  owner : Nat
  /-- The column in the augmented system. -/
  entries : SparseVector F
  /-- The number of nonzeros in the rows of the constraints. -/
  nrNonzeros : Nat

/-- Which rows are free and which candidates are unassigned. -/
structure Elimination (F : Type) where
  /-- The candidates. -/
  candidates : List (CandidateColumn F)
  /-- Whether a row is free, by row. -/
  free : List Bool
  /-- The candidates with a nonzero in a row that was free at the start, by row. -/
  rowColumns : List (List Nat)
  /-- The number of unassigned candidates with a nonzero in a row, by row. -/
  rowCount : List Nat
  /-- The number of free rows with a nonzero of a candidate, by candidate. -/
  columnCount : List Nat
  /-- Whether a candidate is assigned or dropped, by candidate. -/
  assigned : List Bool

namespace Elimination

variable {F : Type} [Scalar F]

/-! ### Reading -/

/-- The rows with a nonzero of a column, among those that a flag is set for. -/
def rowsAmong (flags : List Bool) (column : CandidateColumn F) : List Nat :=
  SparseVector.positions <| column.entries.filter fun entry =>
    flags[entry.1]? == some true && !(entry.2 == 0)

/-- The state at the start, given the rows that are free. -/
def start (free : List Bool) (candidates : List (CandidateColumn F)) : Elimination F :=
  let rows := candidates.map (rowsAmong free)
  let rowColumns := (List.range free.length).map fun i =>
    (List.range candidates.length).filter fun k => rows[k]?.any fun r => r.contains i
  { candidates, free, rowColumns
    rowCount := rowColumns.map List.length
    columnCount := rows.map List.length
    assigned := List.replicate candidates.length false }

/-- Whether a row is free. -/
def isFree (state : Elimination F) (row : Nat) : Bool :=
  state.free[row]? == some true

/-- Whether a candidate is neither assigned nor dropped. -/
def isUnassigned (state : Elimination F) (k : Nat) : Bool :=
  state.assigned[k]? == some false

/-- The free rows in which a candidate has a nonzero. -/
def freeRows (state : Elimination F) (k : Nat) : List Nat :=
  match state.candidates[k]? with
  | some column => rowsAmong state.free column
  | none => []

/-- The free rows with a single unassigned candidate, row `0` excluded. -/
def singletonRows (state : Elimination F) : List Nat :=
  (List.range' 1 (state.free.length - 1)).filter fun i =>
    state.isFree i && state.rowCount[i]? == some 1

/-- The candidates with a single free row. -/
def singletonColumns (state : Elimination F) : List Nat :=
  (List.range state.candidates.length).filter fun k => state.columnCount[k]? == some 1

/-- The candidate to pivot on in a singleton row. -/
def columnFor? (state : Elimination F) (row : Nat) : Option Nat :=
  if state.isFree row && state.rowCount[row]? == some 1 then
    (state.rowColumns[row]?).bind fun columns => columns.find? state.isUnassigned
  else none

/-- The row to pivot on with a singleton column. -/
def rowFor? (state : Elimination F) (k : Nat) : Option Nat :=
  if state.isUnassigned k && state.columnCount[k]? == some 1 then (state.freeRows k).head?
  else none

/-- Whether the entry of a candidate in a row has at least a given magnitude. -/
def isAcceptable (state : Elimination F) (tolerance : F) (k row : Nat) : Bool :=
  (state.candidates[k]?.bind fun column => column.entries.valueAt? row).any fun value =>
    tolerance ≤ Scalar.magnitude value

/-! ### Assigning -/

/-- Lowers the counts at the listed indices by one each, and lists those that come down to one. -/
def lower? : (counts indices : List Nat) → Option (List Nat × List Nat)
  | counts, [] => some (counts, [])
  | counts, i :: indices => do
      match ← counts[i]? with
      | 0 => none
      | count + 1 =>
          let (counts, singletons) ← lower? (counts.set i count) indices
          some (counts, if count = 1 then i :: singletons else singletons)

/-- Marks a candidate and lowers the counts of the given rows. -/
def release? (state : Elimination F) (k : Nat) (rows : List Nat) :
    Option (Elimination F × List Nat) := do
  let (rowCount, singletons) ← lower? state.rowCount rows
  some ({ state with assigned := state.assigned.set k true, rowCount }, singletons)

/-- Marks a row and lowers the counts of the unassigned candidates in it. -/
def occupy? (state : Elimination F) (row : Nat) : Option (Elimination F × List Nat) := do
  let columns ← state.rowColumns[row]?
  let (columnCount, singletons) ← lower? state.columnCount (columns.filter state.isUnassigned)
  some
    ({ state with
        free := state.free.set row false
        rowCount := state.rowCount.set row 0
        columnCount }, singletons)

/-- Gives an unassigned candidate a free row.  The rows and the candidates that have become
singletons are listed. -/
def assign? (state : Elimination F) (k row : Nat) :
    Option (Elimination F × List Nat × List Nat) :=
  if state.isUnassigned k && state.isFree row then do
    let (state, rows) ← state.release? k ((state.freeRows k).filter fun i => i != row)
    let (state, columns) ← state.occupy? row
    some (state, rows, columns)
  else none

/-- Takes an unassigned candidate out of the counts without a row. -/
def drop? (state : Elimination F) (k : Nat) : Option (Elimination F) := do
  let (state, _) ← state.release? k (state.freeRows k)
  some state

end Elimination

end RevisedSimplex
