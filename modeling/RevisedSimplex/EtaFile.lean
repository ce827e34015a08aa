import RevisedSimplex.EtaArena

/-!
# Eta files

An `EtaFile` is an arena that can be read: its lists fit each other, its columns have entries, and
nothing follows the committed columns but a staged one.  Every operation keeps it so, and therefore
a file is described by what is read from it, its list `columns` of committed columns and the one
that is `staged`.  Staging and discarding leave `columns` alone, and a commit appends the inverse
of the staged column to it.
-/

namespace RevisedSimplex

namespace EtaColumn

variable {F : Type}

/-- A column is made from what is stored of it. -/
theorem ofStored?_stored (column : EtaColumn F) :
  ofStored? column.owner column.stored = some column
  := by
  unfold ofStored? stored
  rw [List.getLast?_append]
  simp

/-- Only a list with an entry stores a column. -/
theorem exists_ofStored? {entries : SparseVector F} (h : entries ≠ []) (owner : Nat) :
  ∃ column, ofStored? owner entries = some column
  := by
  unfold ofStored?
  rw [List.getLast?_eq_some_getLast h]
  exact ⟨_, rfl⟩

/-- A column stores the entries that it is made from. -/
theorem stored_of_ofStored? {owner : Nat} {entries : SparseVector F} {column : EtaColumn F}
    (h : ofStored? owner entries = some column) :
  column.owner = owner ∧ column.stored = entries
  := by
  unfold ofStored? at h
  obtain ⟨last, hlast, rfl⟩ := Option.map_eq_some_iff.mp h
  refine ⟨rfl, ?_⟩
  obtain ⟨front, rfl⟩ := List.getLast?_eq_some_iff.mp hlast
  unfold stored
  rw [List.dropLast_concat]

theorem stored_ne_nil (column : EtaColumn F) :
  column.stored ≠ []
  := List.concat_ne_nil _ _

variable [Scalar F] {column inverse : EtaColumn F}

/-- Negating a column changes nothing but its numbers. -/
theorem storedRows_of_sign (column : EtaColumn F) (flip : Bool) :
  (if flip then column.negate else column).owner = column.owner
    ∧ (if flip then column.negate else column).stored.map Prod.fst = column.stored.map Prod.fst
  := by
  cases flip with
  | false => exact ⟨rfl, rfl⟩
  | true =>
      refine ⟨rfl, ?_⟩
      unfold stored negate
      rw [if_pos rfl, List.map_append, List.map_append, List.map_map]
      rfl

/-- Inverting a column changes nothing but its numbers. -/
theorem storedRows_of_invert? (h : column.invert? = some inverse) :
  inverse.owner = column.owner
    ∧ inverse.stored.map Prod.fst = column.stored.map Prod.fst
  := by
  unfold invert? at h
  split at h
  · cases h
  · cases h
    refine ⟨rfl, ?_⟩
    unfold stored
    rw [List.map_append, List.map_append, List.map_map]
    rfl

end EtaColumn

namespace EtaArena

variable {F : Type} {arena later : EtaArena F} {k : Nat} {flip done : Bool}

/-! ### Arenas that can be read -/

/-- The lists of an arena fit each other, every column has entries, and behind the committed
columns there is a staged one or nothing. -/
structure Sound (arena : EtaArena F) : Prop where
  length_values : arena.values.length = arena.rows.length
  length_owners : arena.owners.length = arena.columnEnds.length
  increasing : (0 :: arena.columnEnds).Pairwise (· < ·)
  committedEnd_le : arena.committedEnd ≤ arena.rows.length
  staged_iff : arena.stagedOwner.isSome = true ↔ arena.committedEnd < arena.rows.length

theorem sound_empty :
  ({} : EtaArena F).Sound
  where
  length_values := rfl
  length_owners := rfl
  increasing := List.pairwise_singleton _ _
  committedEnd_le := Nat.le_refl 0
  staged_iff := by simp [committedEnd]

/-- No committed column ends behind the last one. -/
theorem Sound.le_committedEnd (h : arena.Sound) {stop : Nat} (hstop : stop ∈ arena.columnEnds) :
  stop ≤ arena.committedEnd
  := by
  have hincreasing := (List.pairwise_cons.mp h.increasing).2
  unfold committedEnd
  rcases List.eq_nil_or_concat arena.columnEnds with hends | ⟨front, last, hends⟩
  · rw [hends] at hstop
    cases hstop
  · rw [List.concat_eq_append] at hends
    rw [hends] at hstop hincreasing ⊢
    rw [List.getLastD_concat]
    rcases List.mem_append.mp hstop with hfront | hlast
    · apply Nat.le_of_lt
      apply (List.pairwise_append.mp hincreasing).2.2 stop hfront last List.mem_cons_self
    · apply Nat.le_of_eq (List.mem_singleton.mp hlast)

/-- A committed column has entries, all of them in the committed part. -/
theorem Sound.exists_range? (h : arena.Sound) (hk : k < arena.nrColumns) :
  ∃ start stop, arena.range? k = some (start, stop) ∧ start < stop ∧ stop ≤ arena.committedEnd
  := by
  have hstart : k < (0 :: arena.columnEnds).length := Nat.lt_succ_of_lt hk
  refine ⟨(0 :: arena.columnEnds)[k], arena.columnEnds[k], ?_, ?_, ?_⟩
  · unfold range?
    rw [List.getElem?_eq_getElem hstart, List.getElem?_eq_getElem hk]
    rfl
  · apply List.pairwise_iff_getElem.mp h.increasing k (k + 1) hstart (Nat.succ_lt_succ hk)
    apply Nat.lt_succ_self
  · apply h.le_committedEnd (List.getElem_mem hk)

/-- There is nothing behind the last column. -/
theorem range?_eq_none (hk : arena.nrColumns ≤ k) :
  arena.range? k = none
  := by
  unfold range?
  rw [List.getElem?_eq_none (show arena.columnEnds.length ≤ k from hk)]
  cases (0 :: arena.columnEnds)[k]? <;> rfl

theorem Sound.length_entries (h : arena.Sound) (start : Nat) {stop : Nat}
    (hstop : stop ≤ arena.rows.length) :
  (arena.entries start stop).length = stop - start
  := by
  unfold entries
  rw [List.length_drop, List.length_zip, List.length_take, List.length_take, h.length_values,
    Nat.min_self, Nat.min_eq_left hstop]

theorem Sound.map_fst_entries (h : arena.Sound) (start stop : Nat) :
  (arena.entries start stop).map Prod.fst = (arena.rows.take stop).drop start
  := by
  have hle : (arena.rows.take stop).length ≤ (arena.values.take stop).length := by
    apply Nat.le_of_eq
    rw [List.length_take, List.length_take, h.length_values]
  unfold entries
  rw [List.map_drop, List.map_fst_zip hle]

/-- Every committed column can be read. -/
theorem Sound.exists_column? (h : arena.Sound) (hk : k < arena.nrColumns) :
  ∃ column, arena.column? k = some column
  := by
  obtain ⟨start, stop, hrange, hlt, hle⟩ := h.exists_range? hk
  have howner : k < arena.owners.length := by
    rw [h.length_owners]
    apply hk
  have hne : arena.entries start stop ≠ [] := by
    intro hnil
    have hlength := h.length_entries start (Nat.le_trans hle h.committedEnd_le)
    rw [hnil, List.length_nil] at hlength
    omega
  unfold column?
  rw [hrange, List.getElem?_eq_getElem howner]
  apply EtaColumn.exists_ofStored? hne

/-- Where a column is read from. -/
theorem column?_spec {column : EtaColumn F} (h : arena.column? k = some column) :
  ∃ start stop, arena.range? k = some (start, stop)
    ∧ arena.entries start stop = column.stored ∧ arena.owners[k]? = some column.owner
  := by
  unfold column? at h
  obtain ⟨⟨start, stop⟩, hrange, h⟩ := Option.bind_eq_some_iff.mp h
  obtain ⟨owner, howner, h⟩ := Option.bind_eq_some_iff.mp h
  obtain ⟨rfl, hstored⟩ := EtaColumn.stored_of_ofStored? h
  exact ⟨start, stop, hrange, hstored.symm, howner⟩

theorem lt_of_range? {start stop : Nat} (h : arena.range? k = some (start, stop)) :
  k < arena.nrColumns
  := by
  rcases Nat.lt_or_ge k arena.nrColumns with hk | hk
  · apply hk
  · rw [range?_eq_none hk] at h
    cases h

/-- The rows of a column are listed from its start to its end. -/
theorem Sound.rows_of_column? (h : arena.Sound) {column : EtaColumn F}
    (hcolumn : arena.column? k = some column) :
  ∃ start stop, arena.range? k = some (start, stop) ∧ start < stop ∧ stop ≤ arena.committedEnd
    ∧ (arena.rows.take stop).drop start
      = column.offPivot.map Prod.fst ++ [column.pivotRow]
  := by
  obtain ⟨start, stop, hrange, hstored, -⟩ := column?_spec hcolumn
  obtain ⟨first, last, hsome, hlt, hle⟩ := h.exists_range? (lt_of_range? hrange)
  rw [hrange, Option.some_inj, Prod.mk.injEq] at hsome
  obtain ⟨rfl, rfl⟩ := hsome
  refine ⟨start, stop, hrange, hlt, hle, ?_⟩
  rw [← h.map_fst_entries, hstored]
  unfold EtaColumn.stored
  rw [List.map_append, List.map_singleton]

/-- The pivot of a column is its last entry. -/
theorem Sound.pivot?_eq (h : arena.Sound) {column : EtaColumn F}
    (hcolumn : arena.column? k = some column) :
  arena.pivot? k = some (column.pivotRow, column.owner)
  := by
  obtain ⟨start, stop, hrange, hlt, hle, hrows⟩ := h.rows_of_column? hcolumn
  obtain ⟨_, _, -, -, howner⟩ := column?_spec hcolumn
  have hrow : arena.rows[stop - 1]? = some column.pivotRow := by
    have hstop : stop ≤ arena.rows.length := Nat.le_trans hle h.committedEnd_le
    have hlast := congrArg List.getLast? hrows
    rw [List.getLast?_concat, List.getLast?_drop, List.length_take, Nat.min_eq_left hstop,
      if_neg (Nat.not_le.mpr hlt), List.getLast?_take, if_neg (by omega),
      List.getElem?_eq_getElem (by omega), Option.some_or] at hlast
    rw [List.getElem?_eq_getElem (by omega), hlast]
  unfold pivot?
  rw [hrange, Option.bind_eq_bind, Option.bind_some]
  dsimp only
  rw [hrow, howner]
  rfl

/-- A column is read off the committed part, and off its own end and owner. -/
theorem Sound.column?_congr (h : arena.Sound) (hk : k < arena.nrColumns)
    (hrange : later.range? k = arena.range? k) (howner : later.owners[k]? = arena.owners[k]?)
    (hrows : later.rows.take arena.committedEnd = arena.rows.take arena.committedEnd)
    (hvalues : later.values.take arena.committedEnd = arena.values.take arena.committedEnd) :
  later.column? k = arena.column? k
  := by
  obtain ⟨start, stop, hsome, -, hle⟩ := h.exists_range? hk
  have hentries : later.entries start stop = arena.entries start stop := by
    unfold entries
    rw [← Nat.min_eq_left hle, ← List.take_take, ← List.take_take, hrows, hvalues,
      List.take_take, List.take_take]
  unfold column?
  rw [hrange, howner, hsome, Option.bind_eq_bind, Option.bind_some, Option.bind_eq_bind,
    Option.bind_some]
  dsimp only
  rw [hentries]

/-- The committed columns, in the order in which they were committed. -/
def columns (arena : EtaArena F) : List (EtaColumn F) :=
  (List.range arena.nrColumns).filterMap arena.column?

/-- The columns as they are read one by one. -/
theorem Sound.map_columns (h : arena.Sound) :
  arena.columns.map some = (List.range arena.nrColumns).map arena.column?
  := by
  have hall : ∀ k ∈ List.range arena.nrColumns, ∃ column, arena.column? k = some column :=
    fun k hk => h.exists_column? (List.mem_range.mp hk)
  unfold columns
  generalize List.range arena.nrColumns = indices at hall
  induction indices with
  | nil => rfl
  | cons k indices ih =>
      obtain ⟨⟨column, hcolumn⟩, hrest⟩ := List.forall_mem_cons.mp hall
      rw [List.filterMap_cons_some hcolumn, List.map_cons, List.map_cons, ih hrest, hcolumn]

theorem Sound.length_columns (h : arena.Sound) :
  arena.columns.length = arena.nrColumns
  := by
  rw [← List.length_map some, h.map_columns, List.length_map, List.length_range]

/-! ### Staging -/

/-- The later arena has the committed columns of the other one. -/
structure SameCommitted (arena later : EtaArena F) : Prop where
  columnEnds : later.columnEnds = arena.columnEnds
  owners : later.owners = arena.owners
  factorColumns : later.factorColumns = arena.factorColumns
  rows : later.rows.take arena.committedEnd = arena.rows.take arena.committedEnd
  values : later.values.take arena.committedEnd = arena.values.take arena.committedEnd

theorem SameCommitted.committedEnd (h : SameCommitted arena later) :
  later.committedEnd = arena.committedEnd
  := by
  unfold EtaArena.committedEnd
  rw [h.columnEnds]

theorem SameCommitted.nrColumns (h : SameCommitted arena later) :
  later.nrColumns = arena.nrColumns
  := congrArg List.length h.columnEnds

theorem SameCommitted.range? (h : SameCommitted arena later) (k : Nat) :
  later.range? k = arena.range? k
  := by
  unfold EtaArena.range?
  rw [h.columnEnds]

/-- What is read off the committed columns does not depend on what follows them. -/
theorem SameCommitted.column?_eq (h : SameCommitted arena later) (hsound : arena.Sound) :
  later.column? = arena.column?
  := by
  funext k
  rcases Nat.lt_or_ge k arena.nrColumns with hk | hk
  · apply hsound.column?_congr hk (h.range? k) (by rw [h.owners]) h.rows h.values
  · unfold column?
    rw [h.range?, range?_eq_none hk]
    rfl

theorem SameCommitted.columns_eq (h : SameCommitted arena later) (hsound : arena.Sound) :
  later.columns = arena.columns
  := by
  unfold columns
  rw [h.nrColumns, h.column?_eq hsound]

/-- Cutting an arena off where its committed columns end. -/
theorem sameCommitted_discardStaged (arena : EtaArena F) :
  SameCommitted arena arena.discardStaged
  where
  columnEnds := rfl
  owners := rfl
  factorColumns := rfl
  rows := by
    unfold discardStaged
    rw [List.take_take, Nat.min_self]
  values := by
    unfold discardStaged
    rw [List.take_take, Nat.min_self]

theorem Sound.length_rows_discardStaged (h : arena.Sound) :
  arena.discardStaged.rows.length = arena.committedEnd
  := by
  unfold discardStaged
  rw [List.length_take, Nat.min_eq_left h.committedEnd_le]

theorem Sound.length_values_discardStaged (h : arena.Sound) :
  arena.discardStaged.values.length = arena.committedEnd
  := by
  unfold discardStaged
  rw [List.length_take, h.length_values, Nat.min_eq_left h.committedEnd_le]

theorem Sound.discardStaged (h : arena.Sound) :
  arena.discardStaged.Sound
  where
  length_values := by rw [h.length_values_discardStaged, h.length_rows_discardStaged]
  length_owners := h.length_owners
  increasing := h.increasing
  committedEnd_le := Nat.le_of_eq h.length_rows_discardStaged.symm
  staged_iff := by
    rw [h.length_rows_discardStaged]
    constructor
    · intro hstaged
      cases hstaged
    · intro hlt
      exact absurd hlt (Nat.lt_irrefl arena.committedEnd)

/-- An arena without a staged column has nothing to discard. -/
theorem Sound.discardStaged_eq_self (h : arena.Sound) (hstaged : arena.stagedOwner = none) :
  arena.discardStaged = arena
  := by
  have hend : arena.rows.length ≤ arena.committedEnd := by
    rw [← Nat.not_lt, ← h.staged_iff, hstaged]
    exact Bool.false_ne_true
  unfold EtaArena.discardStaged
  rw [List.take_of_length_le hend, List.take_of_length_le (by rw [h.length_values]; exact hend),
    ← hstaged]

variable {column : EtaColumn F}

/-- Staging writes nothing into the committed part. -/
theorem Sound.sameCommitted_stage (h : arena.Sound) (column : EtaColumn F) :
  SameCommitted arena (arena.stage column)
  where
  columnEnds := rfl
  owners := rfl
  factorColumns := rfl
  rows := by
    change (arena.discardStaged.rows ++ _).take _ = _
    rw [List.take_append_of_le_length (Nat.le_of_eq h.length_rows_discardStaged.symm),
      (sameCommitted_discardStaged arena).rows]
  values := by
    change (arena.discardStaged.values ++ _).take _ = _
    rw [List.take_append_of_le_length (Nat.le_of_eq h.length_values_discardStaged.symm),
      (sameCommitted_discardStaged arena).values]

/-- A staged column is discarded without a trace. -/
theorem Sound.discardStaged_stage (h : arena.Sound) (column : EtaColumn F) :
  (arena.stage column).discardStaged = arena.discardStaged
  := by
  have hsame := h.sameCommitted_stage column
  unfold EtaArena.discardStaged
  rw [hsame.committedEnd, hsame.rows, hsame.values]
  rfl

/-- Staging begins where the committed columns end. -/
theorem stage_congr (h : later.discardStaged = arena.discardStaged) (column : EtaColumn F) :
  later.stage column = arena.stage column
  := by
  unfold stage
  rw [h]

/-- A column that is staged replaces another one. -/
theorem Sound.stage_stage (h : arena.Sound) (first second : EtaColumn F) :
  (arena.stage first).stage second = arena.stage second
  := stage_congr (h.discardStaged_stage first) second

theorem Sound.length_rows_stage (h : arena.Sound) (column : EtaColumn F) :
  (arena.stage column).rows.length = arena.committedEnd + column.stored.length
  := by
  change (arena.discardStaged.rows ++ _).length = _
  rw [List.length_append, h.length_rows_discardStaged, List.length_map]

theorem Sound.length_values_stage (h : arena.Sound) (column : EtaColumn F) :
  (arena.stage column).values.length = arena.committedEnd + column.stored.length
  := by
  change (arena.discardStaged.values ++ _).length = _
  rw [List.length_append, h.length_values_discardStaged, List.length_map]

theorem Sound.stage (h : arena.Sound) (column : EtaColumn F) :
  (arena.stage column).Sound
  where
  length_values := by rw [h.length_values_stage, h.length_rows_stage]
  length_owners := h.length_owners
  increasing := h.increasing
  committedEnd_le := by
    rw [h.length_rows_stage]
    apply Nat.le_add_right
  staged_iff := by
    rw [h.length_rows_stage]
    constructor
    · intro _
      apply Nat.lt_add_of_pos_right
      apply List.length_pos_iff.mpr column.stored_ne_nil
    · intro _
      rfl

/-- The entries behind the committed columns are those of the staged column. -/
theorem Sound.entries_stage (h : arena.Sound) (column : EtaColumn F) :
  (arena.stage column).entries arena.committedEnd (arena.stage column).values.length
    = column.stored
  := by
  have hle : (arena.stage column).rows.length ≤ (arena.stage column).values.length := by
    apply Nat.le_of_eq
    rw [h.length_rows_stage, h.length_values_stage]
  unfold EtaArena.entries
  rw [List.take_length, List.take_of_length_le hle]
  change ((arena.discardStaged.rows ++ _).zip (arena.discardStaged.values ++ _)).drop _ = _
  have hlength : arena.discardStaged.rows.length = arena.discardStaged.values.length := by
    rw [h.length_rows_discardStaged, h.length_values_discardStaged]
  have hzip : (arena.discardStaged.rows.zip arena.discardStaged.values).length
      = arena.committedEnd := by
    rw [List.length_zip, h.length_rows_discardStaged, h.length_values_discardStaged, Nat.min_self]
  rw [List.zip_append hlength, ← hzip, List.drop_left, ← List.zip_of_prod rfl rfl]

theorem Sound.staged_stage (h : arena.Sound) (column : EtaColumn F) :
  (arena.stage column).staged = some column
  := by
  unfold staged
  rw [(h.sameCommitted_stage column).committedEnd, h.entries_stage]
  apply column.ofStored?_stored

theorem staged_eq_none (hstaged : arena.stagedOwner = none) :
  arena.staged = none
  := by
  unfold staged
  rw [hstaged]
  rfl

/-! ### Committing -/

/-- The arena with another column committed as it is, and nothing staged. -/
def append (arena : EtaArena F) (column : EtaColumn F) : EtaArena F :=
  let after := arena.stage column
  { after with
    columnEnds := arena.columnEnds ++ [after.rows.length]
    owners := arena.owners ++ [column.owner]
    stagedOwner := none }

theorem Sound.append_stage (h : arena.Sound) (first second : EtaColumn F) :
  (arena.stage first).append second = arena.append second
  := by
  unfold EtaArena.append
  rw [h.stage_stage]
  rfl

theorem committedEnd_append (arena : EtaArena F) (column : EtaColumn F) :
  (arena.append column).committedEnd = (arena.append column).rows.length
  := by
  change (arena.columnEnds ++ [_]).getLastD 0 = _
  rw [List.getLastD_concat]
  rfl

theorem Sound.append (h : arena.Sound) (column : EtaColumn F) :
  (arena.append column).Sound
  where
  length_values := (h.stage column).length_values
  length_owners := by
    change (arena.owners ++ [_]).length = (arena.columnEnds ++ [_]).length
    rw [List.length_append, List.length_append, h.length_owners]
    rfl
  increasing := by
    change (0 :: (arena.columnEnds ++ [_])).Pairwise (· < ·)
    rw [← List.cons_append, List.pairwise_append]
    refine ⟨h.increasing, List.pairwise_singleton _ _, ?_⟩
    intro stop hstop last hlast
    rw [List.mem_singleton.mp hlast]
    rw [h.length_rows_stage]
    have hpos := List.length_pos_iff.mpr column.stored_ne_nil
    rcases List.mem_cons.mp hstop with rfl | hstop
    · omega
    · have hle := h.le_committedEnd hstop
      omega
  committedEnd_le := Nat.le_of_eq (committedEnd_append arena column)
  staged_iff := by
    rw [committedEnd_append]
    constructor
    · intro hstaged
      cases hstaged
    · intro hlt
      exact absurd hlt (Nat.lt_irrefl _)

/-- The column that is committed last. -/
theorem Sound.column?_append_self (h : arena.Sound) (column : EtaColumn F) :
  (arena.append column).column? arena.nrColumns = some column
  := by
  have hstart : (0 :: (arena.columnEnds ++ [(arena.stage column).rows.length]))[arena.nrColumns]?
      = some arena.committedEnd := by
    unfold nrColumns committedEnd
    rcases List.eq_nil_or_concat arena.columnEnds with hends | ⟨front, last, hends⟩
    · rw [hends]
      rfl
    · rw [hends, List.concat_eq_append, List.getLastD_concat, List.length_append,
        List.length_singleton, List.getElem?_cons_succ, List.append_assoc,
        List.getElem?_append_right (Nat.le_refl _), Nat.sub_self]
      rfl
  have hstop : (arena.columnEnds ++ [(arena.stage column).rows.length])[arena.nrColumns]?
      = some (arena.stage column).rows.length := List.getElem?_concat_length
  have howner : (arena.owners ++ [column.owner])[arena.nrColumns]? = some column.owner := by
    rw [nrColumns, ← h.length_owners]
    apply List.getElem?_concat_length
  have hrange : (arena.append column).range? arena.nrColumns
      = some (arena.committedEnd, (arena.stage column).rows.length) := by
    unfold range?
    change (do
      let start ← (0 :: (arena.columnEnds ++ [(arena.stage column).rows.length]))[arena.nrColumns]?
      let stop ← (arena.columnEnds ++ [(arena.stage column).rows.length])[arena.nrColumns]?
      some (start, stop)) = _
    rw [hstart, hstop]
    rfl
  have hentries := h.entries_stage column
  rw [h.length_values_stage, ← h.length_rows_stage] at hentries
  unfold column?
  rw [hrange]
  change ((arena.owners ++ [column.owner])[arena.nrColumns]?).bind _ = _
  rw [howner]
  change EtaColumn.ofStored? column.owner ((arena.stage column).entries _ _) = _
  rw [hentries]
  apply column.ofStored?_stored

/-- The columns that were committed before stay where they are. -/
theorem Sound.column?_append_of_lt (h : arena.Sound) (column : EtaColumn F)
    (hk : k < arena.nrColumns) :
  (arena.append column).column? k = arena.column? k
  := by
  have hsame := h.sameCommitted_stage column
  have hrange : (arena.append column).range? k = arena.range? k := by
    unfold range?
    change (do
      let start ← (0 :: (arena.columnEnds ++ [_]))[k]?
      let stop ← (arena.columnEnds ++ [_])[k]?
      some (start, stop)) = _
    rw [List.getElem?_append_left hk, ← List.cons_append,
      List.getElem?_append_left (Nat.lt_succ_of_lt hk)]
  have howner : (arena.append column).owners[k]? = arena.owners[k]? := by
    apply List.getElem?_append_left
    rw [h.length_owners]
    apply hk
  have hrows : (arena.append column).rows.take arena.committedEnd
      = arena.rows.take arena.committedEnd := hsame.rows
  apply h.column?_congr hk hrange howner hrows hsame.values

/-- Committing a column appends it to the list of columns. -/
theorem Sound.columns_append (h : arena.Sound) (column : EtaColumn F) :
  (arena.append column).columns = arena.columns ++ [column]
  := by
  have hcount : (arena.append column).nrColumns = arena.nrColumns + 1 := by
    change (arena.columnEnds ++ [_]).length = _
    rw [List.length_append]
    rfl
  apply (List.map_inj_right fun _ _ => Option.some_inj.mp).mp
  rw [(h.append column).map_columns, hcount, List.range_succ, List.map_append, List.map_append,
    h.map_columns, List.map_singleton, List.map_singleton, h.column?_append_self]
  congr 1
  apply List.map_congr_left
  intro k hk
  apply h.column?_append_of_lt column (List.mem_range.mp hk)

variable [Scalar F]

/-- A commit leaves the arena as it is, or appends the inverse of the staged column. -/
theorem Sound.commit?_eq (h : arena.Sound) (flip : Bool) :
  arena.commit? flip = match arena.staged with
    | none => some (false, arena)
    | some column =>
        ((if flip then column.negate else column).invert?).map fun inverse =>
          (true, arena.append inverse)
  := by
  cases howner : arena.stagedOwner with
  | none =>
      rw [staged_eq_none howner]
      unfold commit?
      rw [howner]
  | some owner =>
      have hlt : arena.committedEnd < arena.rows.length := by
        rw [← h.staged_iff, howner]
        rfl
      have hlength := h.length_entries arena.committedEnd (Nat.le_refl _)
      rw [← h.length_values] at hlt hlength
      have hne : arena.entries arena.committedEnd arena.values.length ≠ [] := by
        rw [← List.length_pos_iff, hlength]
        omega
      obtain ⟨column, hcolumn⟩ := EtaColumn.exists_ofStored? hne owner
      obtain ⟨hcolumnOwner, hstored⟩ := EtaColumn.stored_of_ofStored? hcolumn
      have hstaged : arena.staged = some column := by
        unfold staged
        rw [howner]
        apply hcolumn
      have hrows : column.stored.map Prod.fst = arena.rows.drop arena.committedEnd := by
        rw [hstored, h.map_fst_entries, h.length_values, List.take_length]
      rw [hstaged]
      unfold commit?
      rw [howner]
      dsimp only
      rw [hcolumn, Option.bind_eq_bind, Option.bind_some]
      obtain ⟨hsignedOwner, hsignedRows⟩ := column.storedRows_of_sign flip
      cases hinverse : (if flip then column.negate else column).invert? with
      | none => rfl
      | some inverse =>
          -- The rows stay where they are, and the inverse has the same ones.
          obtain ⟨hinverseOwner, hinverseRows⟩ := EtaColumn.storedRows_of_invert? hinverse
          have hall : arena.rows.take arena.committedEnd ++ inverse.stored.map Prod.fst
              = arena.rows := by
            rw [hinverseRows, hsignedRows, hrows, List.take_append_drop]
          rw [Option.bind_some, Option.map_some]
          unfold EtaArena.append EtaArena.stage EtaArena.discardStaged
          dsimp only
          rw [hall, h.length_values, hinverseOwner, hsignedOwner, hcolumnOwner]

theorem Sound.commit? (h : arena.Sound) (hcommit : arena.commit? flip = some (done, later)) :
  later.Sound
  := by
  rw [h.commit?_eq] at hcommit
  split at hcommit
  · cases hcommit
    apply h
  · obtain ⟨inverse, -, heq⟩ := Option.map_eq_some_iff.mp hcommit
    cases heq
    apply h.append

omit [Scalar F] in
/-- Marking the end of a factorization changes nothing but the mark. -/
theorem markFactorEnd?_eq_some (h : arena.markFactorEnd? = some later) :
  arena.stagedOwner = none ∧ later = { arena with factorColumns := arena.nrColumns }
  := by
  unfold markFactorEnd? at h
  split at h
  · cases h
  · rename_i hstaged
    unfold isStaged at hstaged
    cases h
    exact ⟨Option.not_isSome_iff_eq_none.mp hstaged, rfl⟩

omit [Scalar F] in
theorem Sound.setFactorColumns (h : arena.Sound) (count : Nat) :
  Sound { arena with factorColumns := count }
  := ⟨h.length_values, h.length_owners, h.increasing, h.committedEnd_le, h.staged_iff⟩

omit [Scalar F] in
theorem Sound.markFactorEnd? (h : arena.Sound) (hmark : arena.markFactorEnd? = some later) :
  later.Sound
  := by
  obtain ⟨-, rfl⟩ := markFactorEnd?_eq_some hmark
  apply h.setFactorColumns

end EtaArena

/-- An arena that can be read. -/
structure EtaFile (F : Type) extends EtaArena F where
  sound : toEtaArena.Sound := by exact EtaArena.sound_empty

namespace EtaFile

variable {F : Type}

/-! ### Growing -/

/-- The file with another column staged, in the place of one that was staged before. -/
def stage (file : EtaFile F) (column : EtaColumn F) : EtaFile F :=
  ⟨file.toEtaArena.stage column, file.sound.stage column⟩

/-- The file without a staged column. -/
def discardStaged (file : EtaFile F) : EtaFile F :=
  ⟨file.toEtaArena.discardStaged, file.sound.discardStaged⟩

/-- The file with another column committed as it is, and nothing staged. -/
def append (file : EtaFile F) (column : EtaColumn F) : EtaFile F :=
  ⟨file.toEtaArena.append column, file.sound.append column⟩

/-- The file with all its columns counted to the factorization. -/
def asFactor (file : EtaFile F) : EtaFile F :=
  ⟨{ file.toEtaArena with factorColumns := file.nrColumns }, file.sound.setFactorColumns _⟩

/-- The file with all its columns counted to the factorization.  No column may be staged. -/
def markFactorEnd? (file : EtaFile F) : Option (EtaFile F) :=
  file.toEtaArena.markFactorEnd?.pmap (fun arena h => ⟨arena, h⟩)
    fun _ h => file.sound.markFactorEnd? h

/-- Whether a column was staged, and the file with the inverse of that column committed, or of its
negation if `flip` holds.  A pivot of zero cannot be committed. -/
def commit? [Scalar F] (file : EtaFile F) (flip : Bool) : Option (Bool × EtaFile F) :=
  (file.toEtaArena.commit? flip).pmap (fun pair h => (pair.1, ⟨pair.2, h⟩))
    fun _ h => file.sound.commit? h

/-! ### What the operations do to the columns -/

theorem ext {file other : EtaFile F} (h : file.toEtaArena = other.toEtaArena) :
  file = other
  := by
  cases file
  cases other
  cases h
  rfl

@[simp]
theorem columns_empty :
  ({} : EtaFile F).columns = []
  := rfl

@[simp]
theorem staged_empty :
  ({} : EtaFile F).staged = none
  := rfl

@[simp]
theorem columns_stage (file : EtaFile F) (column : EtaColumn F) :
  (file.stage column).columns = file.columns
  := (file.sound.sameCommitted_stage column).columns_eq file.sound

@[simp]
theorem staged_stage (file : EtaFile F) (column : EtaColumn F) :
  (file.stage column).staged = some column
  := file.sound.staged_stage column

@[simp]
theorem factorColumns_stage (file : EtaFile F) (column : EtaColumn F) :
  (file.stage column).factorColumns = file.factorColumns
  := rfl

@[simp]
theorem columns_discardStaged (file : EtaFile F) :
  file.discardStaged.columns = file.columns
  := (EtaArena.sameCommitted_discardStaged file.toEtaArena).columns_eq file.sound

@[simp]
theorem staged_discardStaged (file : EtaFile F) :
  file.discardStaged.staged = none
  := EtaArena.staged_eq_none rfl

@[simp]
theorem factorColumns_discardStaged (file : EtaFile F) :
  file.discardStaged.factorColumns = file.factorColumns
  := rfl

@[simp]
theorem columns_append (file : EtaFile F) (column : EtaColumn F) :
  (file.append column).columns = file.columns ++ [column]
  := file.sound.columns_append column

@[simp]
theorem staged_append (file : EtaFile F) (column : EtaColumn F) :
  (file.append column).staged = none
  := EtaArena.staged_eq_none rfl

@[simp]
theorem factorColumns_append (file : EtaFile F) (column : EtaColumn F) :
  (file.append column).factorColumns = file.factorColumns
  := rfl

@[simp]
theorem columns_asFactor (file : EtaFile F) :
  file.asFactor.columns = file.columns
  := rfl

@[simp]
theorem staged_asFactor (file : EtaFile F) :
  file.asFactor.staged = file.staged
  := rfl

@[simp]
theorem factorColumns_asFactor (file : EtaFile F) :
  file.asFactor.factorColumns = file.nrColumns
  := rfl

@[simp]
theorem append_stage (file : EtaFile F) (first second : EtaColumn F) :
  (file.stage first).append second = file.append second
  := ext (file.sound.append_stage first second)

theorem nrColumns_eq (file : EtaFile F) :
  file.nrColumns = file.columns.length
  := file.sound.length_columns.symm

theorem nrColumns_append (file : EtaFile F) (column : EtaColumn F) :
  (file.append column).nrColumns = file.nrColumns + 1
  := by
  rw [nrColumns_eq, columns_append, List.length_append, List.length_singleton, nrColumns_eq]

/-- The pivot of the column that was committed last. -/
theorem pivot?_append (file : EtaFile F) (column : EtaColumn F) :
  (file.append column).pivot? ((file.append column).nrColumns - 1)
    = some (column.pivotRow, column.owner)
  := by
  rw [nrColumns_append, Nat.add_sub_cancel]
  exact (file.append column).sound.pivot?_eq (file.sound.column?_append_self column)

theorem nrUpdates_eq (file : EtaFile F) :
  file.nrUpdates = file.columns.length - file.factorColumns
  := by
  unfold EtaArena.nrUpdates
  rw [nrColumns_eq]

/-- The column that the file tells of is the one that is staged. -/
theorem isStaged_eq (file : EtaFile F) :
  file.isStaged = file.staged.isSome
  := by
  unfold EtaArena.isStaged
  cases howner : file.stagedOwner with
  | none =>
      rw [EtaArena.staged_eq_none howner]
      rfl
  | some owner =>
      have hlt : file.committedEnd < file.rows.length := by
        rw [← file.sound.staged_iff, howner]
        rfl
      have hlength := file.sound.length_entries file.committedEnd (Nat.le_refl _)
      rw [← file.sound.length_values] at hlt hlength
      obtain ⟨column, hcolumn⟩ := EtaColumn.exists_ofStored?
        (List.length_pos_iff.mp (by rw [hlength]; omega)) owner
      unfold EtaArena.staged
      rw [howner, Option.bind_eq_bind, Option.bind_some, hcolumn]
      rfl

/-! ### Committing -/

variable [Scalar F] {file : EtaFile F}

/-- There is nothing to commit unless a column is staged. -/
theorem commit?_of_staged_eq_none (h : file.staged = none) (flip : Bool) :
  file.commit? flip = some (false, file)
  := by
  have hcommit := file.sound.commit?_eq flip
  rw [h] at hcommit
  exact Option.pmap_eq_some_iff.mpr ⟨(false, file.toEtaArena), file.sound, hcommit, rfl⟩

/-- The inverse of the staged column is committed. -/
theorem commit?_of_staged {column : EtaColumn F} (h : file.staged = some column) (flip : Bool) :
  file.commit? flip = ((if flip then column.negate else column).invert?).map fun inverse =>
    (true, file.append inverse)
  := by
  have hcommit := file.sound.commit?_eq flip
  rw [h] at hcommit
  dsimp only at hcommit
  cases hinverse : (if flip then column.negate else column).invert? with
  | none =>
      rw [hinverse] at hcommit
      exact Option.pmap_eq_none_iff.mpr hcommit
  | some inverse =>
      rw [hinverse] at hcommit
      exact Option.pmap_eq_some_iff.mpr
        ⟨(true, file.toEtaArena.append inverse), file.sound.append inverse, hcommit, rfl⟩

omit [Scalar F] in
/-- The end of a factorization is marked unless a column is staged. -/
theorem markFactorEnd?_eq (file : EtaFile F) :
  file.markFactorEnd? = if file.staged.isSome then none else some file.asFactor
  := by
  have hmark : file.toEtaArena.markFactorEnd?
      = if file.staged.isSome then none else some file.asFactor.toEtaArena := by
    rw [← isStaged_eq]
    rfl
  cases hstaged : file.staged with
  | none =>
      rw [hstaged] at hmark
      exact Option.pmap_eq_some_iff.mpr ⟨_, file.asFactor.sound, hmark, rfl⟩
  | some column =>
      rw [hstaged] at hmark
      exact Option.pmap_eq_none_iff.mpr hmark

/-! ### Solving -/

omit [Scalar F] in
/-- Going through the columns by their indices is going through their list. -/
theorem foldlM_column?_eq {β : Type} (step : β → EtaColumn F → Option β) {indices : List Nat}
    (hindices : ∀ k ∈ indices, k < file.nrColumns) (start : β) :
  indices.foldlM (fun b k => (file.column? k).bind (step b)) start
    = (indices.filterMap file.column?).foldlM step start
  := by
  induction indices generalizing start with
  | nil => rfl
  | cons k indices ih =>
      obtain ⟨hk, hindices⟩ := List.forall_mem_cons.mp hindices
      obtain ⟨column, hcolumn⟩ := file.sound.exists_column? hk
      rw [List.filterMap_cons_some hcolumn, List.foldlM_cons, List.foldlM_cons, hcolumn,
        Option.bind_some]
      congr 1
      funext next
      apply ih hindices

/-- The columns are applied one after the other. -/
theorem applyRight?_eq_foldlM (file : EtaFile F) (vector : DenseVector F) :
  file.applyRight? vector
    = file.columns.foldlM (fun v column => column.applyRight? v) vector
  := file.foldlM_column?_eq (fun v column => column.applyRight? v)
    (fun _ hk => List.mem_range.mp hk) vector

/-- The last column is applied first. -/
theorem applyLeft?_eq_foldlM (file : EtaFile F) (vector : DenseVector F) :
  file.applyLeft? vector
    = file.columns.reverse.foldlM (fun v column => column.applyLeft? v) vector
  := by
  unfold EtaArena.columns
  rw [← List.filterMap_reverse]
  apply file.foldlM_column?_eq (fun v column => column.applyLeft? v)
  intro k hk
  apply List.mem_range.mp (List.mem_reverse.mp hk)

/-- The last column is applied first, to both vectors. -/
theorem applyLeftDouble?_eq_foldlM (file : EtaFile F) (first second : DenseVector F) :
  file.applyLeftDouble? first second
    = file.columns.reverse.foldlM
      (fun pair column => column.applyLeftDouble? pair.1 pair.2) (first, second)
  := by
  unfold EtaArena.columns
  rw [← List.filterMap_reverse]
  apply file.foldlM_column?_eq
    (fun (pair : DenseVector F × DenseVector F) column => column.applyLeftDouble? pair.1 pair.2)
  intro k hk
  apply List.mem_range.mp (List.mem_reverse.mp hk)

end EtaFile

end RevisedSimplex
