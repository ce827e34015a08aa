import RevisedSimplex.Model

/-!
# Tables of a basis

A basis is stored in two tables: which variable is at each position, and which position each
variable has.  Beside them stands the side that is stored for every variable.  The objective dummy
`0` is always at position `0`.

An operation changes the entries of the tables one by one.  It gives no table when it is called
in a way that it forbids, and `checked?` is its last assertion.
-/

namespace RevisedSimplex

/-- The two tables of a basis, and the sides stored for the variables. -/
structure BasisTable where
  /-- The number of rows. -/
  nrRows : Nat
  /-- The variable at each position, the objective dummy first. -/
  owners : List Nat
  /-- The position of each variable, if it is basic. -/
  positions : List (Option Nat)
  /-- The side stored for each variable. -/
  sides : List Side
deriving DecidableEq

namespace BasisTable

/-! ### Reading a table -/

/-- The number of variables, the objective dummy included. -/
def nrVariables (table : BasisTable) : Nat :=
  table.positions.length

/-- The variables at the positions `1` to `m`. -/
def basic (table : BasisTable) : List Nat :=
  table.owners.tail

/-- The variable at a position. -/
def variableAt? (table : BasisTable) (position : Nat) : Option Nat :=
  table.owners[position]?

/-- The position of a variable, if it is basic. -/
def positionOf? (table : BasisTable) (v : Nat) : Option Nat :=
  table.positions[v]?.join

/-- Whether a variable is basic. -/
def isBasic (table : BasisTable) (v : Nat) : Bool :=
  (table.positionOf? v).isSome

/-- Whether a variable exists and is not basic. -/
def isNonbasic (table : BasisTable) (v : Nat) : Bool :=
  decide (v < table.nrVariables) && !table.isBasic v

/-- The side stored for a variable. -/
def side? (table : BasisTable) (v : Nat) : Option Side :=
  table.sides[v]?

/-- The variables that are not basic, in increasing order. -/
def nonbasic (table : BasisTable) : List Nat :=
  (List.range table.nrVariables).filter fun v => !table.isBasic v

/-- The number of basic variables, the objective dummy excluded. -/
def nrBasic (table : BasisTable) : Nat :=
  table.positions.tail.countP Option.isSome

/-- Whether each position holds the variable whose position it is, and no other variable has a
position. -/
def isConsistent (table : BasisTable) : Bool :=
  table.owners.length == table.nrRows + 1
    && table.owners.head? == some 0
    && (List.range table.owners.length).all (fun position =>
      (table.variableAt? position).bind table.positionOf? == some position)
    && table.positions.countP Option.isSome == table.nrRows + 1

/-! ### Making a table -/

/-- The table of all slacks, with every variable at the side it is put to at first. -/
def slack {F : Type} [Scalar F] (model : Model F) : BasisTable where
  nrRows := model.nrRows
  owners := List.range (model.nrRows + 1)
  positions := (List.range model.nrVariables).map fun v =>
    if v ≤ model.nrRows then some v else none
  sides := .lower :: model.bounds.map Bounds.initialSide

/-- The table in which only the objective dummy has a position. -/
def empty (nrRows : Nat) (sides : List Side) : BasisTable where
  nrRows := nrRows
  owners := [0]
  positions := (List.replicate sides.length none).set 0 (some 0)
  sides := sides

/-- The table with a variable at the next position. -/
def place (table : BasisTable) (v : Nat) : Except Error BasisTable :=
  match table.positions[v]? with
  | none => .error (.variableOutOfRange v table.nrVariables)
  | some (some _) => .error (.repeatedVariable v)
  | some none => .ok
      { table with
        owners := table.owners ++ [v]
        positions := table.positions.set v (some table.owners.length) }

/-- The table with the given variables and sides, or the first fault of these. -/
def ofParts (nrRows : Nat) (basic : List Nat) (sides : List Side) : Except Error BasisTable :=
  if basic.length ≠ nrRows then
    .error (.dimensionMismatch .basicVariables nrRows basic.length)
  else if sides.length < 1 + nrRows then
    .error (.dimensionMismatch .boundSides (1 + nrRows) sides.length)
  else basic.foldlM place (empty nrRows sides)

/-! ### Changing a table -/

/-- The table itself, if it is consistent. -/
def checked? (table : BasisTable) : Option BasisTable :=
  if table.isConsistent then some table else none

/-- The table with another side stored for a variable. -/
def setSide? (table : BasisTable) (v : Nat) (side : Side) : Option BasisTable :=
  if v < table.nrVariables then some { table with sides := table.sides.set v side } else none

/-- The table with a nonbasic variable at its other side. -/
def flip? (table : BasisTable) (v : Nat) : Option BasisTable := do
  let side ← table.side? v
  if table.isNonbasic v then table.setSide? v side.other else none

/-- The variable at a row in `1` to `m`, and the table with a nonbasic one in its place. -/
def exchange? (table : BasisTable) (row entering : Nat) : Option (Nat × BasisTable) := do
  let leaving ← table.variableAt? row
  if row = 0 ∨ table.isNonbasic entering = false then none
  else
    let after ← checked?
      { table with
        owners := table.owners.set row entering
        positions := (table.positions.set leaving none).set entering (some row) }
    some (leaving, after)

/-- The positions without those of the given variables. -/
def clear (positions : List (Option Nat)) (vs : List Nat) : List (Option Nat) :=
  vs.foldl (fun positions v => positions.set v none) positions

/-- The positions with the given variables at consecutive ones. -/
def assign (positions : List (Option Nat)) (first : Nat) : List Nat → List (Option Nat)
  | [] => positions
  | v :: vs => assign (positions.set v (some first)) (first + 1) vs

/-- The sides with a variable that has no position at the side it is put to at first. -/
def resetSide? {F : Type} [Scalar F] (positions : List (Option Nat)) (model : Model F)
    (sides : List Side) (v : Nat) : Option (List Side) :=
  if positions[v]? = some none then
    (model.bounds? v).map fun bounds => sides.set v bounds.initialSide
  else some sides

/-- The table with the given variables at the positions `0` to `m`, the first of them being the
objective dummy.  A variable that loses its position goes to the side it is put to at first. -/
def applyPositions? {F : Type} [Scalar F] (table : BasisTable) (owners : List Nat)
    (model : Model F) : Option BasisTable :=
  if owners.length ≠ table.nrRows + 1 ∨ owners.head? ≠ some 0
      ∨ ¬ ∀ v ∈ owners, v < table.nrVariables then none
  else do
    -- All positions are cleared before any is assigned: a variable may move to another one.
    let positions := assign (clear table.positions table.owners) 0 owners
    let sides ← table.owners.foldlM (resetSide? positions model) table.sides
    checked? { table with owners, positions, sides }

end BasisTable

end RevisedSimplex
