import RevisedSimplex.BasisTable

/-!
# Bases

A `Basis` is a pair of tables that are inverse to each other: `variableAt?` gives the variable of
a position and `positionOf?` the position of a variable.  Every operation keeps them so, and
therefore none of the operations on a basis gives anything but a basis.

`exchange?` replaces the variable of a row, `applyPositions?` takes over the variables that a
factorization has accepted, and `sameAs` compares two bases without regard to the order of their
basic variables and to the sides stored for them.
-/

namespace RevisedSimplex

namespace BasisTable

variable {table after : BasisTable} {i v row entering leaving nrRows : Nat}

/-! ### Tables that agree -/

/-- The tables are inverse to each other, and every variable has a side. -/
structure Agrees (table : BasisTable) : Prop where
  first : table.owners[0]? = some 0
  length_sides : table.sides.length = table.positions.length
  inverse : ∀ i v : Nat, table.owners[i]? = some v ↔ table.positions[v]? = some (some i)

/-- The tables agree, and every row has a variable. -/
structure Consistent (table : BasisTable) : Prop extends table.Agrees where
  length_owners : table.owners.length = table.nrRows + 1

/-- A variable is at one position. -/
theorem Agrees.position_unique {j : Nat} (h : table.Agrees) (hi : table.owners[i]? = some v)
    (hj : table.owners[j]? = some v) :
  i = j
  := by
  have heq := (h.inverse i v).mp hi
  rw [(h.inverse j v).mp hj, Option.some_inj, Option.some_inj] at heq
  exact heq.symm

/-- A nonbasic variable has no position. -/
theorem positions_of_isNonbasic (h : table.isNonbasic v = true) :
  table.positions[v]? = some none
  := by
  unfold isNonbasic isBasic positionOf? nrVariables at h
  rw [Bool.and_eq_true, decide_eq_true_eq] at h
  obtain ⟨hlt, h⟩ := h
  rw [List.getElem?_eq_getElem hlt] at h ⊢
  cases hposition : table.positions[v] with
  | none => rfl
  | some i => simp [hposition] at h

/-! ### New tables -/

theorem slack_consistent {F : Type} [Scalar F] (model : Model F) :
  (slack model).Consistent
  where
  first := by simp [slack]
  length_sides := by
    simp [slack, Model.nrVariables, model.bounds_length, Model.nrRows, Model.nrColumns]
    omega
  inverse := by
    intro i v
    simp only [slack, List.getElem?_map, List.getElem?_eq_some_iff, List.length_range,
      List.getElem_range, Option.map_eq_some_iff, Model.nrVariables]
    constructor
    · rintro ⟨hi, rfl⟩
      exact ⟨i, ⟨by omega, rfl⟩, if_pos (Nat.le_of_lt_succ hi)⟩
    · rintro ⟨w, ⟨-, rfl⟩, hi⟩
      split at hi
      · rename_i hv
        cases hi
        exact ⟨Nat.lt_succ_of_le hv, rfl⟩
      · cases hi
  length_owners := by simp [slack]

theorem empty_agrees {sides : List Side} (h : 0 < sides.length) :
  (empty nrRows sides).Agrees
  where
  first := rfl
  length_sides := by simp [empty]
  inverse := by
    intro i v
    cases v with
    | zero => cases i <;> simp [empty, h]
    | succ v => cases i <;> simp [empty, List.getElem?_replicate]

/-- A variable that is placed had no position before. -/
theorem place_eq (h : table.place v = .ok after) :
  table.positions[v]? = some none
    ∧ after =
      { table with
        owners := table.owners ++ [v]
        positions := table.positions.set v (some table.owners.length) }
  := by
  unfold place at h
  split at h
  · cases h
  · cases h
  · rename_i hposition
    cases h
    exact ⟨hposition, rfl⟩

theorem Agrees.place (h : table.Agrees) (hplace : table.place v = .ok after) :
  after.Agrees
  := by
  obtain ⟨hposition, rfl⟩ := place_eq hplace
  have hlt : v < table.positions.length := (List.getElem?_eq_some_iff.mp hposition).1
  have hfirst := (List.getElem?_eq_some_iff.mp h.first).1
  refine ⟨?_, ?_, ?_⟩
  · rw [List.getElem?_append_left hfirst, h.first]
  · simpa using h.length_sides
  intro i w
  by_cases hw : v = w
  · -- The new variable had no position, and its position had no variable.
    subst hw
    rw [List.getElem?_set_self hlt, Option.some_inj, Option.some_inj]
    constructor
    · intro hi
      by_cases hold : i < table.owners.length
      · rw [List.getElem?_append_left hold, h.inverse, hposition] at hi
        cases hi
      · have hend := (List.getElem?_eq_some_iff.mp hi).1
        rw [List.length_append, List.length_singleton] at hend
        omega
    · rintro rfl
      rw [List.getElem?_append_right (Nat.le_refl _), Nat.sub_self]
      rfl
  · rw [List.getElem?_set_ne hw, ← h.inverse]
    by_cases hold : i < table.owners.length
    · rw [List.getElem?_append_left hold]
    · rw [List.getElem?_append_right (Nat.le_of_not_lt hold),
        List.getElem?_eq_none (Nat.le_of_not_lt hold), List.getElem?_singleton]
      split <;> simp [hw]

theorem Agrees.places {vs : List Nat} (h : table.Agrees)
    (hplaces : vs.foldlM BasisTable.place table = .ok after) :
  after.Agrees ∧ after.nrRows = table.nrRows ∧ after.owners = table.owners ++ vs
    ∧ after.sides = table.sides
  := by
  induction vs generalizing table with
  | nil =>
      cases hplaces
      exact ⟨h, rfl, (List.append_nil _).symm, rfl⟩
  | cons v vs ih =>
      rw [List.foldlM_cons] at hplaces
      cases hplace : table.place v with
      | error e =>
          rw [hplace] at hplaces
          cases hplaces
      | ok next =>
          rw [hplace] at hplaces
          obtain ⟨hagrees, hrows, howners, hsides⟩ := ih (h.place hplace) hplaces
          obtain ⟨-, rfl⟩ := place_eq hplace
          refine ⟨hagrees, hrows, ?_, hsides⟩
          rw [howners, List.append_assoc, List.singleton_append]

/-- What the table made of given parts consists of. -/
theorem ofParts_eq {basic : List Nat} {sides : List Side}
    (h : ofParts nrRows basic sides = .ok table) :
  table.Consistent ∧ table.nrRows = nrRows ∧ table.owners = 0 :: basic ∧ table.sides = sides
  := by
  unfold ofParts at h
  split at h
  · cases h
  rename_i hlength
  rw [Classical.not_not] at hlength
  split at h
  · cases h
  rename_i hsides
  obtain ⟨hagrees, hrows, howners, hsides⟩ := (empty_agrees (by omega)).places h
  refine ⟨⟨hagrees, ?_⟩, hrows, howners, hsides⟩
  rw [howners, hrows, List.length_append, hlength]
  apply Nat.add_comm

/-! ### Changed tables -/

theorem Consistent.setSide? {side : Side} (h : table.Consistent)
    (hset : table.setSide? v side = some after) :
  after.Consistent
  := by
  unfold BasisTable.setSide? at hset
  split at hset
  · cases hset
    exact ⟨⟨h.first, by simpa using h.length_sides, h.inverse⟩, h.length_owners⟩
  · cases hset

theorem Consistent.flip? (h : table.Consistent) (hflip : table.flip? v = some after) :
  after.Consistent
  := by
  unfold BasisTable.flip? at hflip
  obtain ⟨side, -, hflip⟩ := Option.bind_eq_some_iff.mp hflip
  split at hflip
  · apply h.setSide? hflip
  · cases hflip

theorem checked?_eq (h : table.checked? = some after) :
  after = table ∧ table.isConsistent = true
  := by
  unfold checked? at h
  split at h
  · cases h
    exact ⟨rfl, ‹_›⟩
  · cases h

/-- What an exchange does to the two tables. -/
theorem exchange?_eq_some (h : table.exchange? row entering = some (leaving, after)) :
  row ≠ 0 ∧ table.owners[row]? = some leaving ∧ table.isNonbasic entering = true
    ∧ after =
      { table with
        owners := table.owners.set row entering
        positions := (table.positions.set leaving none).set entering (some row) }
  := by
  unfold exchange? at h
  obtain ⟨other, hother, h⟩ := Option.bind_eq_some_iff.mp h
  split at h
  · cases h
  rename_i hvalid
  rw [not_or, Bool.not_eq_false] at hvalid
  obtain ⟨checked, hchecked, h⟩ := Option.bind_eq_some_iff.mp h
  cases h
  exact ⟨hvalid.1, hother, hvalid.2, (checked?_eq hchecked).1⟩

theorem Agrees.exchange (h : table.Agrees) (hrow : row ≠ 0)
    (hleaving : table.owners[row]? = some leaving) (hentering : table.isNonbasic entering = true) :
  Agrees
    { table with
      owners := table.owners.set row entering
      positions := (table.positions.set leaving none).set entering (some row) }
  := by
  have hnone := positions_of_isNonbasic hentering
  have hposition := (h.inverse row leaving).mp hleaving
  have hlt : row < table.owners.length := (List.getElem?_eq_some_iff.mp hleaving).1
  have hentered : entering < table.positions.length := (List.getElem?_eq_some_iff.mp hnone).1
  have hne : leaving ≠ entering := by
    rintro rfl
    rw [hnone] at hposition
    cases hposition
  refine ⟨?_, ?_, ?_⟩
  · rw [List.getElem?_set_ne hrow, h.first]
  · simpa using h.length_sides
  intro i v
  by_cases hi : row = i
  · subst hi
    rw [List.getElem?_set_self hlt, Option.some_inj]
    by_cases hv : entering = v
    · subst hv
      rw [List.getElem?_set_self (by simpa using hentered)]
      simp
    · -- Only the variable that leaves was at the row.
      rw [List.getElem?_set_ne hv]
      by_cases hold : leaving = v
      · subst hold
        rw [List.getElem?_set_self (List.getElem?_eq_some_iff.mp hposition).1]
        simp [hv]
      · rw [List.getElem?_set_ne hold, ← h.inverse, hleaving, Option.some_inj]
        simp [hv, hold]
  · rw [List.getElem?_set_ne hi]
    by_cases hv : entering = v
    · subst hv
      rw [List.getElem?_set_self (by simpa using hentered), h.inverse, hnone]
      simp [hi]
    · rw [List.getElem?_set_ne hv]
      by_cases hold : leaving = v
      · subst hold
        rw [List.getElem?_set_self (List.getElem?_eq_some_iff.mp hposition).1, h.inverse, hposition]
        simp [hi]
      · rw [List.getElem?_set_ne hold, h.inverse]

theorem Consistent.exchange? (h : table.Consistent)
    (hexchange : table.exchange? row entering = some (leaving, after)) :
  after.Consistent
  := by
  obtain ⟨hrow, hleaving, hentering, rfl⟩ := exchange?_eq_some hexchange
  exact ⟨h.toAgrees.exchange hrow hleaving hentering, by simpa using h.length_owners⟩

/-! ### Positions that are cleared and assigned -/

theorem length_clear (positions : List (Option Nat)) (vs : List Nat) :
  (clear positions vs).length = positions.length
  := by
  induction vs generalizing positions with
  | nil => rfl
  | cons v vs ih => exact (ih _).trans List.length_set

/-- A position that is left was there before, and is that of another variable. -/
theorem getElem?_clear {positions : List (Option Nat)} {vs : List Nat}
    (h : (clear positions vs)[v]? = some (some i)) :
  positions[v]? = some (some i) ∧ v ∉ vs
  := by
  induction vs generalizing positions with
  | nil => exact ⟨h, List.not_mem_nil⟩
  | cons w vs ih =>
      obtain ⟨hposition, hnot⟩ := ih h
      rw [List.getElem?_set] at hposition
      split at hposition
      · split at hposition <;> cases hposition
      · rename_i hne
        refine ⟨hposition, ?_⟩
        rw [List.mem_cons, not_or]
        exact ⟨fun e => hne e.symm, hnot⟩

theorem length_assign (positions : List (Option Nat)) (first : Nat) (vs : List Nat) :
  (assign positions first vs).length = positions.length
  := by
  induction vs generalizing positions first with
  | nil => rfl
  | cons v vs ih => exact (ih _ _).trans List.length_set

/-- A variable that no position is assigned to keeps the one it has. -/
theorem getElem?_assign_of_notMem {positions : List (Option Nat)} {first : Nat} {vs : List Nat}
    (h : v ∉ vs) :
  (assign positions first vs)[v]? = positions[v]?
  := by
  induction vs generalizing positions first with
  | nil => rfl
  | cons w vs ih =>
      rw [List.mem_cons, not_or] at h
      obtain ⟨hne, hnot⟩ := h
      exact (ih hnot).trans (List.getElem?_set_ne fun e => hne e.symm)

/-- The position that is assigned to one of several variables. -/
theorem getElem?_assign {positions : List (Option Nat)} {first : Nat} {vs : List Nat}
    (hnodup : vs.Nodup) (h : vs[i]? = some v) (hlt : v < positions.length) :
  (assign positions first vs)[v]? = some (some (first + i))
  := by
  induction vs generalizing positions first i with
  | nil => cases h
  | cons w vs ih =>
      obtain ⟨hnot, hnodup⟩ := List.nodup_cons.mp hnodup
      cases i with
      | zero =>
          rw [List.getElem?_cons_zero, Option.some_inj] at h
          subst h
          exact (getElem?_assign_of_notMem hnot).trans (List.getElem?_set_self hlt)
      | succ i =>
          rw [List.getElem?_cons_succ] at h
          change (assign (positions.set w (some first)) (first + 1) vs)[v]? = _
          rw [ih hnodup h (by simpa using hlt), Nat.add_right_comm, Nat.add_assoc]

theorem length_resetSide? {F : Type} [Scalar F] {positions : List (Option Nat)} {model : Model F}
    {sides reset : List Side} (h : resetSide? positions model sides v = some reset) :
  reset.length = sides.length
  := by
  unfold resetSide? at h
  split at h
  · obtain ⟨bounds, -, rfl⟩ := Option.map_eq_some_iff.mp h
    apply List.length_set
  · cases h
    rfl

theorem length_resetSides? {F : Type} [Scalar F] {positions : List (Option Nat)} {model : Model F}
    {sides reset : List Side} {vs : List Nat}
    (h : vs.foldlM (resetSide? positions model) sides = some reset) :
  reset.length = sides.length
  := by
  induction vs generalizing sides with
  | nil =>
      cases h
      rfl
  | cons v vs ih =>
      obtain ⟨next, hnext, h⟩ := Option.bind_eq_some_iff.mp h
      rw [ih h, length_resetSide? hnext]

/-- The tables after other positions are taken over. -/
theorem Agrees.assign {owners : List Nat} {sides : List Side} (h : table.Agrees)
    (hfirst : owners[0]? = some 0) (hnodup : owners.Nodup)
    (hrange : ∀ v ∈ owners, v < table.nrVariables) (hsides : sides.length = table.sides.length) :
  Agrees
    { table with
      owners, sides
      positions := BasisTable.assign (clear table.positions table.owners) 0 owners }
  := by
  refine ⟨hfirst, ?_, ?_⟩
  · simp only [length_assign, length_clear, hsides, h.length_sides]
  have hassigned {i v : Nat} (hi : owners[i]? = some v) :
      (BasisTable.assign (clear table.positions table.owners) 0 owners)[v]? = some (some i) := by
    have hlt : v < (clear table.positions table.owners).length := by
      rw [length_clear]
      apply hrange v (List.mem_of_getElem? hi)
    rw [getElem?_assign hnodup hi hlt, Nat.zero_add]
  intro i v
  refine ⟨hassigned, ?_⟩
  intro hposition
  by_cases hmem : v ∈ owners
  · obtain ⟨j, hj⟩ := List.mem_iff_getElem?.mp hmem
    rw [hassigned hj, Option.some_inj, Option.some_inj] at hposition
    rw [← hposition, hj]
  · -- The positions before were cleared.
    rw [getElem?_assign_of_notMem hmem] at hposition
    obtain ⟨hbefore, hnot⟩ := getElem?_clear hposition
    exact absurd (List.mem_of_getElem? ((h.inverse i v).mpr hbefore)) hnot

/-- No variable has two positions in a table that passes the check. -/
theorem nodup_of_isConsistent (h : table.isConsistent = true) :
  table.owners.Nodup
  := by
  unfold isConsistent at h
  simp only [Bool.and_eq_true, List.all_eq_true, List.mem_range, beq_iff_eq] at h
  have hposition {i : Nat} (hi : i < table.owners.length) :
      table.positionOf? table.owners[i] = some i := by
    have hbind := h.1.2 i hi
    rwa [variableAt?, List.getElem?_eq_getElem hi, Option.bind_some] at hbind
  apply List.pairwise_iff_getElem.mpr
  intro i j hi hj hlt heq
  have hsame := hposition hi
  rw [heq, hposition hj, Option.some_inj] at hsame
  omega

/-- What taking over positions does to the tables. -/
theorem applyPositions?_eq_some {F : Type} [Scalar F] {model : Model F} {owners : List Nat}
    (h : table.applyPositions? owners model = some after) :
  owners.length = table.nrRows + 1 ∧ owners[0]? = some 0 ∧ owners.Nodup
    ∧ (∀ v ∈ owners, v < table.nrVariables)
    ∧ ∃ sides, table.owners.foldlM
        (resetSide? (assign (clear table.positions table.owners) 0 owners) model) table.sides
          = some sides
      ∧ after =
        { table with
          owners, sides
          positions := assign (clear table.positions table.owners) 0 owners }
  := by
  unfold applyPositions? at h
  split at h
  · cases h
  rename_i hvalid
  rw [not_or, not_or, Classical.not_not, Classical.not_not, Classical.not_not,
    List.head?_eq_getElem?] at hvalid
  obtain ⟨hlength, hfirst, hrange⟩ := hvalid
  obtain ⟨sides, hsides, h⟩ := Option.bind_eq_some_iff.mp h
  obtain ⟨rfl, hconsistent⟩ := checked?_eq h
  exact ⟨hlength, hfirst, nodup_of_isConsistent hconsistent, hrange, sides, hsides, rfl⟩

theorem Consistent.applyPositions? {F : Type} [Scalar F] {model : Model F} {owners : List Nat}
    (h : table.Consistent) (happly : table.applyPositions? owners model = some after) :
  after.Consistent
  := by
  obtain ⟨hlength, hfirst, hnodup, hrange, sides, hsides, rfl⟩ := applyPositions?_eq_some happly
  exact ⟨h.toAgrees.assign hfirst hnodup hrange (length_resetSides? hsides), hlength⟩

end BasisTable

/-- Two tables of a basis that agree. -/
structure Basis extends BasisTable where
  consistent : toBasisTable.Consistent
deriving DecidableEq

namespace Basis

/-- The basis with the given variables and sides, or the first fault of these. -/
def ofParts (nrRows : Nat) (basic : List Nat) (sides : List Side) : Except Error Basis :=
  match h : BasisTable.ofParts nrRows basic sides with
  | .error e => .error e
  | .ok table => .ok ⟨table, (BasisTable.ofParts_eq h).1⟩

/-- The basis of all slacks, with every variable at the side it is put to at first. -/
def slack {F : Type} [Scalar F] (model : Model F) : Basis :=
  ⟨BasisTable.slack model, BasisTable.slack_consistent model⟩

/-- The basis with another side stored for a variable. -/
def setSide? (basis : Basis) (v : Nat) (side : Side) : Option Basis :=
  (basis.toBasisTable.setSide? v side).pmap Basis.mk fun _ h => basis.consistent.setSide? h

/-- The basis with a nonbasic variable at its other side. -/
def flip? (basis : Basis) (v : Nat) : Option Basis :=
  (basis.toBasisTable.flip? v).pmap Basis.mk fun _ h => basis.consistent.flip? h

/-- The variable at a row in `1` to `m`, and the basis with a nonbasic one in its place. -/
def exchange? (basis : Basis) (row entering : Nat) : Option (Nat × Basis) :=
  (basis.toBasisTable.exchange? row entering).pmap (fun pair h => (pair.1, ⟨pair.2, h⟩))
    fun _ h => basis.consistent.exchange? h

/-- The basis with the given variables at the positions `0` to `m`, the first of them being the
objective dummy.  A variable that loses its position goes to the side it is put to at first. -/
def applyPositions? {F : Type} [Scalar F] (basis : Basis) (owners : List Nat)
    (model : Model F) : Option Basis :=
  (basis.toBasisTable.applyPositions? owners model).pmap Basis.mk
    fun _ h => basis.consistent.applyPositions? h

/-- Whether two bases have the same basic variables, and the same sides for the others. -/
def sameAs (basis other : Basis) : Bool :=
  basis.nrVariables == other.nrVariables
    && (List.range basis.nrVariables).all fun v =>
      if basis.isBasic v then other.isBasic v
      else !other.isBasic v && basis.side? v == other.side? v

end Basis

end RevisedSimplex
