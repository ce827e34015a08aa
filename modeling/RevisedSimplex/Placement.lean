import RevisedSimplex.Context
import RevisedSimplex.Elimination
import RevisedSimplex.EtaFile
import RevisedSimplex.Model

/-!
# Placements

A `Placement` gives the columns of a list of variables a row each, and collects the eta columns
that invert the matrix they form.  Slacks keep their own rows and need no eta column.  The
structural columns are placed in three groups.

* A row singleton is the only candidate left in a free row.  All eta columns so far leave it
  unchanged, and it is committed as it stands.
* A column singleton has one nonzero left in the free rows.  It takes that row, and is committed
  after all others, last placed first, when again no eta column changes it.
* The rest are transformed by the eta columns so far and placed in the order of their counts.  One
  without an acceptable pivot is singular and gets no row.

Free rows that remain go to their slacks.
-/

namespace RevisedSimplex

/-- The rows given to variables so far, and the eta columns for them. -/
structure Placement (F : Type) where
  /-- The rows and candidates that are left. -/
  elimination : Elimination F
  /-- The variable of each row that has one. -/
  positions : List (Option Nat)
  /-- The eta columns so far. -/
  file : EtaFile F := {}
  /-- The column singletons with their rows, the last one first. -/
  deferred : List (Nat × Nat) := []
  /-- The singular candidates in the order of their rejection. -/
  singular : List Nat := []

/-- Rows and candidates that became singletons and are still to be looked at.

Of a queue no more is assumed than that it is first in, first out, and that an element is in it at
most once.  One that has been taken out can enter again. -/
structure SingletonQueues where
  rows : List Nat
  columns : List Nat

/-- Appends the elements of a list, each at the end unless it is in the queue already, where it then
keeps its place. -/
def enqueue (queue : List Nat) : List Nat → List Nat
  | [] => queue
  | x :: rest => enqueue (if queue.contains x then queue else queue ++ [x]) rest

/-- The queues with newly found singletons at their ends. -/
def SingletonQueues.add (queues : SingletonQueues) (rows columns : List Nat) : SingletonQueues :=
  ⟨enqueue queues.rows rows, enqueue queues.columns columns⟩

namespace Placement

variable {F : Type} [Scalar F]

/-! ### The start -/

/-- The positions of the slacks of a list of variables.  No slack may be listed twice. -/
def slackPositions? (nrRows : Nat) (indices : List Nat) : Option (List (Option Nat)) :=
  let start := some 0 :: List.replicate nrRows none
  (indices.filter fun v => v ≤ nrRows).foldlM
    (fun (positions : List (Option Nat)) slack =>
      match positions[slack]? with
      | some none => some (positions.set slack (some slack))
      | _ => none)
    start

/-- The candidate column of a variable. -/
def candidate? (model : Model F) (v : Nat) : Option (CandidateColumn F) := do
  let entries ← model.column? v
  let nrNonzeros ← model.nonzeros? v
  some { owner := v, entries, nrNonzeros }

/-- The slacks of a list of variables in their rows, and the structural ones as candidates. -/
def start? (model : Model F) (indices : List Nat) : Option (Placement F) := do
  let positions ← slackPositions? model.nrRows indices
  let candidates ← (indices.filter fun v => model.nrRows < v).mapM (candidate? model)
  some { elimination := .start (positions.map Option.isNone) candidates, positions }

/-! ### Singletons -/

/-- Commits a column with a given pivot row. -/
def commit? (placement : Placement F) (column : EtaColumn F) : Option (Placement F) := do
  let (_, file) ← (placement.file.stage column).commit? false
  some { placement with file }

/-- Commits the column of a candidate as it stands. -/
def commitRaw? (placement : Placement F) (k row : Nat) : Option (Placement F) := do
  let column ← placement.elimination.candidates[k]?
  placement.commit? (← EtaColumn.ofSparse? column.entries row column.owner)

/-- Gives a candidate a row, and lists the rows and candidates that have become singletons. -/
def place? (placement : Placement F) (k row : Nat) :
    Option (Placement F × List Nat × List Nat) := do
  let column ← placement.elimination.candidates[k]?
  let (elimination, rows, columns) ← placement.elimination.assign? k row
  some
    ({ placement with elimination, positions := placement.positions.set row (some column.owner) },
      rows, columns)

/-- Places the only candidate of a row, if the row still has just one and its entry is an
acceptable pivot. -/
def takeRow? (tolerance : F) (row : Nat) (placement : Placement F) (queues : SingletonQueues) :
    Option (Placement F × SingletonQueues) :=
  match (placement.elimination.columnFor? row).filter fun k =>
      placement.elimination.isAcceptable tolerance k row with
  | none => some (placement, queues)
  | some k => do
      let placement ← placement.commitRaw? k row
      let (placement, rows, columns) ← placement.place? k row
      some (placement, queues.add rows columns)

/-- Places a candidate in its only free row, if it still has just one and its entry there is an
acceptable pivot. -/
def takeColumn? (tolerance : F) (k : Nat) (placement : Placement F) (queues : SingletonQueues) :
    Option (Placement F × SingletonQueues) :=
  match (placement.elimination.rowFor? k).filter fun row =>
      placement.elimination.isAcceptable tolerance k row with
  | none => some (placement, queues)
  | some row => do
      let (placement, rows, columns) ← placement.place? k row
      some ({ placement with deferred := (k, row) :: placement.deferred }, queues.add rows columns)

/-- Takes rows and, when there are none, columns from the queues until both are empty. -/
def takeSingletons? (tolerance : F) : (fuel : Nat) → Placement F → SingletonQueues →
    Option (Placement F)
  | 0, placement, _ => some placement
  | fuel + 1, placement, ⟨row :: rows, columns⟩ => do
      let (placement, queues) ← takeRow? tolerance row placement ⟨rows, columns⟩
      takeSingletons? tolerance fuel placement queues
  | fuel + 1, placement, ⟨[], k :: columns⟩ => do
      let (placement, queues) ← takeColumn? tolerance k placement ⟨[], columns⟩
      takeSingletons? tolerance fuel placement queues
  | _ + 1, placement, ⟨[], []⟩ => some placement

/-- Places all singletons.  Each candidate that is placed adds every row and every candidate to
the queues at most once, which bounds the number of turns. -/
def placeSingletons? (tolerance : F) (placement : Placement F) : Option (Placement F) :=
  let state := placement.elimination
  let turns := (state.candidates.length + 1) * (state.free.length + state.candidates.length)
  takeSingletons? tolerance turns placement ⟨state.singletonRows, state.singletonColumns⟩

/-! ### The other columns -/

/-- Whether a candidate comes before another: by its count of free rows, then by its number of
nonzeros, then by its variable. -/
def precedes (state : Elimination F) (j k : Nat) : Bool :=
  match state.columnCount[j]?, state.columnCount[k]?, state.candidates[j]?, state.candidates[k]? with
  | some m, some n, some c, some d =>
      decide (m < n) || (m == n && (decide (c.nrNonzeros < d.nrNonzeros)
        || (c.nrNonzeros == d.nrNonzeros && decide (c.owner < d.owner))))
  | _, _, _, _ => false

/-- The first candidate of a list that no other one precedes. -/
def next (state : Elimination F) (k : Nat) (rest : List Nat) : Nat :=
  rest.foldl (fun best j => if precedes state j best then j else best) k

/-- The first entry of largest magnitude.  An entry also replaces one that it cannot be compared
with. -/
def largest? (entries : SparseVector F) : Option (Nat × F) :=
  entries.foldl
    (fun best entry => match best with
      | some (row, value) => if entry.2 ≤ value then some (row, value) else some entry
      | none => some entry)
    none

/-- The entry in the row with the fewest candidates, the larger magnitude first. -/
def sparsest? (rowCount : Nat → Nat) (entries : SparseVector F) : Option (Nat × F) :=
  entries.foldl
    (fun best entry => match best with
      | some (row, value) =>
          if rowCount entry.1 < rowCount row
              || (rowCount entry.1 == rowCount row && value < entry.2) then some entry
          else some (row, value)
      | none => some entry)
    none

/-- The free row to pivot on with a transformed column. -/
def pivotRow? (context : Context F) (state : Elimination F) (column : DenseVector F) :
    Option Nat := do
  let magnitudes := (column.zipIdx.filter fun entry => state.isFree entry.2 && entry.2 != 0).map
    fun entry => (entry.2, Scalar.magnitude entry.1)
  let (row, value) ← largest? magnitudes
  if value < context.tolerances.factorizationPivot then none
  else match context.rowSelection with
    | .largestMagnitude => some row
    | .markowitz threshold =>
        let least := threshold * value
        let rowCount (i : Nat) := state.rowCount[i]?.getD 0
        (sparsest? rowCount (magnitudes.filter fun entry => least ≤ entry.2)).map Prod.fst

/-- Transforms a candidate and places it, or rejects it when it has no acceptable pivot. -/
def placeTransformed? (context : Context F) (placement : Placement F) (k : Nat) :
    Option (Placement F) := do
  let candidate ← placement.elimination.candidates[k]?
  let raw ← candidate.entries.toDense? placement.positions.length
  let solved ← placement.file.applyRight? raw
  let column := DenseVector.roundRelative context.tolerances.drop solved
  match pivotRow? context placement.elimination column with
  | some row =>
      let placement ← placement.commit? (← EtaColumn.ofDense? column row candidate.owner)
      let (placement, _) ← placement.place? k row
      some placement
  | none =>
      let elimination ← placement.elimination.drop? k
      some { placement with elimination, singular := placement.singular ++ [candidate.owner] }

/-- Places or rejects the listed candidates, choosing the next one each time. -/
def placeRest? (context : Context F) : (count : Nat) → (remaining : List Nat) → Placement F →
    Option (Placement F)
  | count + 1, k :: rest, placement => do
      let chosen := next placement.elimination k rest
      let placement ← placement.placeTransformed? context chosen
      placeRest? context count ((k :: rest).erase chosen) placement
  | _, _, placement => some placement

/-! ### The end -/

/-- Commits the column singletons, the last one first. -/
def commitDeferred? (placement : Placement F) : Option (Placement F) :=
  placement.deferred.foldlM (fun placement pair => placement.commitRaw? pair.1 pair.2) placement

/-- The variable of each row, its own slack if it has got no other. -/
def filledPositions (placement : Placement F) : List Nat :=
  placement.positions.mapIdx fun row v => v.getD row

end Placement

/-- The outcome of placing a list of variables. -/
structure PlacedBasis (F : Type) where
  /-- The eta columns, all of them part of the factorization. -/
  file : EtaFile F
  /-- The variable of each row. -/
  positions : List Nat
  /-- The variables that got no row, in the order of their rejection. -/
  singular : List Nat
  /-- The number of structural candidates. -/
  nrCandidates : Nat
  /-- The number of row and column singletons. -/
  nrSingletons : Nat

/-- Places a list of variables of a model, the objective dummy not among them. -/
def PlacedBasis.of? {F : Type} [Scalar F] (context : Context F) (model : Model F)
    (indices : List Nat) : Option (PlacedBasis F) := do
  if indices.contains 0 then none
  let placement ← Placement.start? model indices
  let placement ← placement.placeSingletons? context.tolerances.factorizationPivot
  let nrCandidates := placement.elimination.candidates.length
  let nrSingletons := placement.file.nrColumns + placement.deferred.length
  let remaining := (List.range nrCandidates).filter placement.elimination.isUnassigned
  let placement ← Placement.placeRest? context remaining.length remaining placement
  let placement ← placement.commitDeferred?
  let file ← placement.file.markFactorEnd?
  some
    { file, nrCandidates, nrSingletons
      positions := placement.filledPositions
      singular := placement.singular }

end RevisedSimplex
