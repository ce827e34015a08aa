import RevisedSimplex.Elimination
import RevisedSimplex.Proofs.Entries

/-!
# Counts of an elimination

The counts that `Elimination` keeps are exact: the count of a free row is the number of
unassigned candidates with a nonzero in it, and the count of an unassigned candidate is the
number of its free rows.  `Counted` states this.  It holds at the start, and assigning or
dropping a candidate keeps it and never fails.

A row with a count of one has a single unassigned candidate, and a candidate with a count of
one has a single free row.
-/

namespace RevisedSimplex

variable {F : Type} [Scalar F]

/-- Whether a column has a nonzero in a row. -/
def CandidateColumn.hits (column : CandidateColumn F) (row : ℕ) : Bool :=
  column.entries.any fun entry => entry.1 == row && !(entry.2 == 0)

namespace Elimination

/-- Whether a candidate has a nonzero in a row. -/
def hits (state : Elimination F) (k row : ℕ) : Bool :=
  state.candidates[k]?.any fun column => column.hits row

/-- The counts are exact. -/
structure Counted (state : Elimination F) : Prop where
  ordered : ∀ column ∈ state.candidates, column.entries.Ordered
  assigned_length : state.assigned.length = state.candidates.length
  row : ∀ i, state.isFree i = true → ∃ columns, state.rowColumns[i]? = some columns
    ∧ columns.Nodup ∧ (∀ k, k ∈ columns ↔ state.hits k i = true)
    ∧ state.rowCount[i]? = some (columns.countP state.isUnassigned)
  column : ∀ k, state.isUnassigned k = true →
    state.columnCount[k]? = some (state.freeRows k).length

/-! ### Rows of a column -/

theorem mem_rowsAmong {flags : List Bool} {column : CandidateColumn F} {i : ℕ} :
  i ∈ rowsAmong flags column ↔ flags[i]? = some true ∧ column.hits i = true
  := by
  simp only [rowsAmong, SparseVector.positions, List.mem_map, List.mem_filter, Bool.and_eq_true,
    beq_iff_eq, CandidateColumn.hits, List.any_eq_true]
  constructor
  · rintro ⟨entry, ⟨hmem, hflag, hvalue⟩, rfl⟩
    use hflag, entry
  · rintro ⟨hflag, entry, hmem, rfl, hvalue⟩
    use entry

theorem nodup_rowsAmong {flags : List Bool} {column : CandidateColumn F}
    (h : column.entries.Ordered) :
  (rowsAmong flags column).Nodup
  := by
  apply List.Nodup.sublist _ h.nodup
  apply List.filter_sublist.map

/-- Occupying a row removes it from the rows of a column. -/
theorem rowsAmong_set (flags : List Bool) (column : CandidateColumn F) (row : ℕ) :
  rowsAmong (flags.set row false) column
    = (rowsAmong flags column).filter fun i => i != row
  := by
  simp only [rowsAmong, SparseVector.positions, List.filter_map, List.filter_filter]
  congr 1
  apply List.filter_congr
  intro entry _
  by_cases hrow : entry.1 = row
  · subst hrow
    have hset : (flags.set entry.1 false)[entry.1]? ≠ some true := by
      rw [List.getElem?_set_self']
      cases flags[entry.1]? <;> simp
    simp [hset]
  · have hset : (flags.set row false)[entry.1]? = flags[entry.1]? :=
      List.getElem?_set_ne fun e => hrow e.symm
    simp [hset, hrow]

theorem mem_freeRows {state : Elimination F} {k i : ℕ} :
  i ∈ state.freeRows k ↔ state.isFree i = true ∧ state.hits k i = true
  := by
  unfold freeRows hits isFree
  cases state.candidates[k]? with
  | none => simp
  | some column => simp [mem_rowsAmong]

theorem Counted.nodup_freeRows {state : Elimination F} (h : state.Counted) (k : ℕ) :
  (state.freeRows k).Nodup
  := by
  unfold freeRows
  cases hk : state.candidates[k]? with
  | none => apply List.nodup_nil
  | some column => apply nodup_rowsAmong (h.ordered column (List.mem_of_getElem? hk))

/-! ### Lowering counts -/

/-- Lowering positive counts at distinct indices. -/
theorem lower?_eq :
    ∀ {counts indices : List ℕ}, indices.Nodup →
      (∀ i ∈ indices, ∃ count, counts[i]? = some (count + 1)) →
      ∃ lowered singletons, lower? counts indices = some (lowered, singletons)
        ∧ ∀ i, lowered[i]? = if i ∈ indices then counts[i]?.map (· - 1) else counts[i]?
  | counts, [], _, _ => ⟨counts, [], rfl, by simp⟩
  | counts, i :: indices, hnodup, hpos => by
      obtain ⟨hnot, hnodup⟩ := List.nodup_cons.mp hnodup
      obtain ⟨⟨count, hcount⟩, hpos⟩ := List.forall_mem_cons.mp hpos
      have hrest : ∀ j ∈ indices, ∃ c, (counts.set i count)[j]? = some (c + 1) := by
        intro j hj
        rw [List.getElem?_set_ne]
        · apply hpos j hj
        · rintro rfl
          apply hnot hj
      obtain ⟨lowered, singletons, hlower, hlowered⟩ := lower?_eq hnodup hrest
      refine ⟨lowered, if count = 1 then i :: singletons else singletons, ?_, ?_⟩
      · rw [lower?, hcount]
        simp [hlower]
      · intro j
        rw [hlowered j]
        by_cases hji : j = i
        · subst hji
          have hlt : j < counts.length := (List.getElem?_eq_some_iff.mp hcount).1
          rw [if_neg hnot, if_pos List.mem_cons_self, hcount, List.getElem?_set_self hlt]
          rfl
        · rw [List.getElem?_set_ne fun e => hji e.symm]
          simp [hji]

/-! ### The start -/

theorem isFree_start {free : List Bool} {candidates : List (CandidateColumn F)} {i : ℕ} :
  (start free candidates).isFree i = true ↔ free[i]? = some true
  := beq_iff_eq

theorem isUnassigned_start {free : List Bool} {candidates : List (CandidateColumn F)} {k : ℕ} :
  (start free candidates).isUnassigned k = true ↔ k < candidates.length
  := by
  simp [start, isUnassigned, List.getElem?_replicate]

/-- The counts of the start are exact. -/
theorem counted_start {free : List Bool} {candidates : List (CandidateColumn F)}
    (h : ∀ column ∈ candidates, column.entries.Ordered) :
  (start free candidates).Counted
  := by
  constructor
  · apply h
  · apply List.length_replicate
  · intro i hi
    have hfree := isFree_start.mp hi
    obtain ⟨hlt, -⟩ := List.getElem?_eq_some_iff.mp hfree
    have hrows (k : ℕ) : ((candidates.map (rowsAmong free))[k]?.any fun r => r.contains i)
        = (start free candidates).hits k i := by
      simp only [List.getElem?_map, hits, start]
      cases candidates[k]? with
      | none => rfl
      | some column =>
          rw [Bool.eq_iff_iff]
          simp [mem_rowsAmong, hfree]
    have hcolumns : (start free candidates).rowColumns[i]?
        = some ((List.range candidates.length).filter fun k =>
          (start free candidates).hits k i) := by
      change ((List.range free.length).map _)[i]? = _
      rw [List.getElem?_map, List.getElem?_range hlt, Option.map_some]
      congr 1
      apply List.filter_congr
      intro k _
      apply hrows k
    refine ⟨_, hcolumns, ?_, ?_, ?_⟩
    · apply List.nodup_range.filter
    · intro k
      rw [List.mem_filter, List.mem_range]
      constructor
      · intro hk
        apply hk.2
      · intro hk
        use ?_, hk
        by_contra hge
        simp [hits, start, List.getElem?_eq_none (not_lt.mp hge)] at hk
    · have hcount : ∀ k ∈ (List.range candidates.length).filter fun k =>
          (start free candidates).hits k i, (start free candidates).isUnassigned k = true := by
        intro k hk
        apply isUnassigned_start.mpr
        apply List.mem_range.mp (List.mem_filter.mp hk).1
      change ((start free candidates).rowColumns.map List.length)[i]? = _
      rw [List.countP_eq_length.mpr hcount, List.getElem?_map, hcolumns, Option.map_some]
  · intro k hk
    have hlt := isUnassigned_start.mp hk
    simp [start, freeRows, hlt]

/-! ### Assigning -/

omit [Scalar F] in
theorem isUnassigned_of_set {state : Elimination F} {k : ℕ} (assigned : List Bool)
    (h : assigned = state.assigned.set k true) (j : ℕ) :
  (assigned[j]? == some false) = (state.isUnassigned j && j != k)
  := by
  subst h
  unfold isUnassigned
  by_cases hjk : j = k
  · subst hjk
    rw [List.getElem?_set_self']
    cases state.assigned[j]? <;> simp
  · rw [List.getElem?_set_ne fun e => hjk e.symm]
    simp [hjk]

omit [Scalar F] in
theorem isFree_of_set {state : Elimination F} {row : ℕ} (free : List Bool)
    (h : free = state.free.set row false) (i : ℕ) :
  (free[i]? == some true) = (state.isFree i && i != row)
  := by
  subst h
  unfold isFree
  by_cases hrow : i = row
  · subst hrow
    rw [List.getElem?_set_self']
    cases state.free[i]? <;> simp
  · rw [List.getElem?_set_ne fun e => hrow e.symm]
    simp [hrow]

/-- Counting without one element of a list without duplicates. -/
theorem countP_and_ne {columns : List ℕ} (hnodup : columns.Nodup) (p : ℕ → Bool) {k : ℕ}
    (hp : p k = true) :
  columns.countP (fun j => p j && j != k)
    = if k ∈ columns then columns.countP p - 1 else columns.countP p
  := by
  have hfilter : columns.countP (fun j => p j && j != k)
      = (columns.erase k).countP p := by
    rw [hnodup.erase_eq_filter, List.countP_filter]
  rw [hfilter, List.countP_erase]
  by_cases hk : k ∈ columns <;> simp [hk, hp]

/-- The count of a free row that an unassigned candidate has a nonzero in is positive. -/
theorem Counted.rowCount_pos {state : Elimination F} (h : state.Counted) {k i : ℕ}
    (hk : state.isUnassigned k = true) (hi : i ∈ state.freeRows k) :
  ∃ count, state.rowCount[i]? = some (count + 1)
  := by
  obtain ⟨hfree, hhits⟩ := mem_freeRows.mp hi
  obtain ⟨columns, -, -, hmem, hcount⟩ := h.row i hfree
  have hpos : 0 < columns.countP state.isUnassigned := by
    apply List.countP_pos_iff.mpr
    use k, (hmem k).mpr hhits, hk
  use columns.countP state.isUnassigned - 1
  rw [hcount]
  congr 1
  omega

/-- Marking a candidate and lowering the counts of some of its rows. -/
theorem Counted.release?_eq {state : Elimination F} (h : state.Counted) {k : ℕ} {rows : List ℕ}
    (hk : state.isUnassigned k = true) (hnodup : rows.Nodup)
    (hrows : ∀ i ∈ rows, i ∈ state.freeRows k) :
  ∃ rowCount singletons,
    state.release? k rows
        = some ({ state with assigned := state.assigned.set k true, rowCount }, singletons)
      ∧ ∀ (i : ℕ) (columns : List ℕ), columns.Nodup → (k ∈ columns ↔ i ∈ rows) →
        state.rowCount[i]? = some (columns.countP state.isUnassigned) →
        rowCount[i]? = some (columns.countP fun j => state.isUnassigned j && j != k)
  := by
  obtain ⟨rowCount, singletons, hlower, hlowered⟩ :=
    lower?_eq hnodup fun i hi => h.rowCount_pos hk (hrows i hi)
  refine ⟨rowCount, singletons, ?_, ?_⟩
  · unfold release?
    rw [hlower]
    rfl
  · intro i columns hcolumns hmem hcount
    rw [hlowered, countP_and_ne hcolumns _ hk, hcount]
    by_cases hi : i ∈ rows
    · rw [if_pos hi, if_pos (hmem.mpr hi)]
      rfl
    · rw [if_neg hi, if_neg fun hc => hi (hmem.mp hc)]

/-- Dropping an unassigned candidate. -/
theorem Counted.drop?_eq {state : Elimination F} (h : state.Counted) {k : ℕ}
    (hk : state.isUnassigned k = true) :
  ∃ result, state.drop? k = some result ∧ result.Counted
    ∧ result.candidates = state.candidates ∧ result.free = state.free
    ∧ result.assigned = state.assigned.set k true
  := by
  obtain ⟨rowCount, singletons, hrelease, hcounts⟩ :=
    h.release?_eq hk (h.nodup_freeRows k) fun _ hi => hi
  let result : Elimination F := { state with assigned := state.assigned.set k true, rowCount }
  have hunassigned (j : ℕ) : result.isUnassigned j = (state.isUnassigned j && j != k) :=
    isUnassigned_of_set result.assigned rfl j
  refine ⟨result, ?_, ?_, rfl, rfl, rfl⟩
  · unfold drop?
    rw [hrelease]
    rfl
  · constructor
    · apply h.ordered
    · change (state.assigned.set k true).length = _
      rw [List.length_set, h.assigned_length]
    · intro i hi
      obtain ⟨columns, hcolumns, hnodup, hmem, hcount⟩ := h.row i hi
      refine ⟨columns, hcolumns, hnodup, hmem, ?_⟩
      have hrow := hcounts i columns hnodup
        ((hmem k).trans ⟨fun hk => mem_freeRows.mpr ⟨hi, hk⟩, fun hk => (mem_freeRows.mp hk).2⟩)
        hcount
      rw [show result.isUnassigned = fun j => state.isUnassigned j && j != k from
        funext hunassigned]
      apply hrow
    · intro j hj
      rw [hunassigned, Bool.and_eq_true] at hj
      apply h.column j hj.1

/-- Marking a free row and lowering the counts of the unassigned candidates in it. -/
theorem occupy?_eq {state : Elimination F} {row : ℕ} {columns : List ℕ}
    (hfree : state.isFree row = true)
    (hordered : ∀ column ∈ state.candidates, column.entries.Ordered)
    (hcolumns : state.rowColumns[row]? = some columns) (hnodup : columns.Nodup)
    (hmem : ∀ k, k ∈ columns ↔ state.hits k row = true)
    (hcount : ∀ k, state.isUnassigned k = true →
      state.columnCount[k]? = some (state.freeRows k).length) :
  ∃ columnCount singletons,
    state.occupy? row
        = some
          ({ state with
              free := state.free.set row false
              rowCount := state.rowCount.set row 0
              columnCount }, singletons)
      ∧ ∀ k, state.isUnassigned k = true →
        columnCount[k]? = some ((state.freeRows k).filter fun i => i != row).length
  := by
  have hrow (k : ℕ) (hk : k ∈ columns.filter state.isUnassigned) :
      state.isUnassigned k = true ∧ row ∈ state.freeRows k := by
    obtain ⟨hk, hunassigned⟩ := List.mem_filter.mp hk
    use hunassigned
    apply mem_freeRows.mpr ⟨hfree, (hmem k).mp hk⟩
  have hpos : ∀ k ∈ columns.filter state.isUnassigned,
      ∃ count, state.columnCount[k]? = some (count + 1) := by
    intro k hk
    obtain ⟨hunassigned, hrow⟩ := hrow k hk
    have hlength := List.length_pos_of_mem hrow
    use (state.freeRows k).length - 1
    rw [hcount k hunassigned]
    congr 1
    omega
  obtain ⟨columnCount, singletons, hlower, hlowered⟩ := lower?_eq (hnodup.filter _) hpos
  refine ⟨columnCount, singletons, ?_, ?_⟩
  · unfold occupy?
    simp [hcolumns, hlower]
  · intro k hk
    have hrows : (state.freeRows k).Nodup := by
      unfold freeRows
      cases hc : state.candidates[k]? with
      | none => apply List.nodup_nil
      | some column => apply nodup_rowsAmong (hordered column (List.mem_of_getElem? hc))
    rw [hlowered, hcount k hk, ← hrows.erase_eq_filter, List.length_erase]
    by_cases hkc : k ∈ columns
    · rw [if_pos (List.mem_filter.mpr ⟨hkc, hk⟩),
        if_pos (mem_freeRows.mpr ⟨hfree, (hmem k).mp hkc⟩)]
      rfl
    · rw [if_neg fun hc => hkc (List.mem_filter.mp hc).1,
        if_neg fun hc => hkc ((hmem k).mpr (mem_freeRows.mp hc).2)]

/-- Assigning an unassigned candidate to a free row. -/
theorem Counted.assign?_eq {state : Elimination F} (h : state.Counted) {k row : ℕ}
    (hk : state.isUnassigned k = true) (hrow : state.isFree row = true) :
  ∃ result rows columns, state.assign? k row = some (result, rows, columns) ∧ result.Counted
    ∧ result.candidates = state.candidates ∧ result.free = state.free.set row false
    ∧ result.assigned = state.assigned.set k true
  := by
  have hothers : ∀ i ∈ (state.freeRows k).filter fun i => i != row, i ∈ state.freeRows k :=
    fun i hi => (List.mem_filter.mp hi).1
  obtain ⟨rowCount, rows, hrelease, hcounts⟩ :=
    h.release?_eq hk ((h.nodup_freeRows k).filter _) hothers
  let released : Elimination F := { state with assigned := state.assigned.set k true, rowCount }
  have hunassigned (j : ℕ) : released.isUnassigned j = (state.isUnassigned j && j != k) :=
    isUnassigned_of_set released.assigned rfl j
  have hcolumn (j : ℕ) (hj : released.isUnassigned j = true) :
      released.columnCount[j]? = some (released.freeRows j).length := by
    rw [hunassigned, Bool.and_eq_true] at hj
    apply h.column j hj.1
  obtain ⟨columns, hcolumns, hnodup, hmem, -⟩ := h.row row hrow
  obtain ⟨columnCount, singletons, hoccupy, hcolumnCount⟩ :=
    occupy?_eq (show released.isFree row = true from hrow) h.ordered hcolumns hnodup hmem hcolumn
  let result : Elimination F :=
    { released with
      free := state.free.set row false
      rowCount := rowCount.set row 0
      columnCount }
  have hfree (i : ℕ) : result.isFree i = (state.isFree i && i != row) :=
    isFree_of_set result.free rfl i
  refine ⟨result, rows, singletons, ?_, ?_, rfl, rfl, rfl⟩
  · unfold assign?
    rw [if_pos (by rw [hk, hrow]; rfl), hrelease]
    change (released.occupy? row).bind (fun pair => some (pair.1, rows, pair.2)) = _
    rw [hoccupy]
    rfl
  · constructor
    · apply h.ordered
    · change (state.assigned.set k true).length = _
      rw [List.length_set, h.assigned_length]
    · intro i hi
      rw [hfree, Bool.and_eq_true] at hi
      obtain ⟨hi, hne⟩ := hi
      have hne : i ≠ row := by simpa using hne
      obtain ⟨columns, hcolumns, hnodup, hmem, hcount⟩ := h.row i hi
      refine ⟨columns, hcolumns, hnodup, hmem, ?_⟩
      have hrows : k ∈ columns ↔ i ∈ (state.freeRows k).filter fun i => i != row := by
        rw [hmem k, List.mem_filter, mem_freeRows]
        simp [hi, hne]
      change (rowCount.set row 0)[i]? = some (columns.countP released.isUnassigned)
      rw [List.getElem?_set_ne fun e => hne e.symm, hcounts i columns hnodup hrows hcount]
      congr 2
      funext j
      rw [hunassigned]
    · intro j hj
      change columnCount[j]? = some (result.freeRows j).length
      rw [hcolumnCount j hj]
      have hreleased : released.candidates[j]? = state.candidates[j]? := rfl
      have hresult : result.candidates[j]? = state.candidates[j]? := rfl
      unfold freeRows
      rw [hreleased, hresult]
      cases state.candidates[j]? with
      | none => rfl
      | some column =>
          change some _ = some (rowsAmong (state.free.set row false) column).length
          rw [rowsAmong_set]

/-! ### Singletons -/

/-- The only candidate of a singleton row. -/
theorem Counted.columnFor?_spec {state : Elimination F} (h : state.Counted) {row k : ℕ}
    (hk : state.columnFor? row = some k) :
  state.isFree row = true ∧ state.isUnassigned k = true ∧ state.hits k row = true
    ∧ ∀ j, state.isUnassigned j = true → state.hits j row = true → j = k
  := by
  unfold columnFor? at hk
  split at hk
  · rename_i hsingle
    rw [Bool.and_eq_true, beq_iff_eq] at hsingle
    obtain ⟨hfree, hone⟩ := hsingle
    obtain ⟨columns, hcolumns, hnodup, hmem, hcount⟩ := h.row row hfree
    rw [hcolumns, Option.bind_some] at hk
    rw [hone, Option.some_inj, List.countP_eq_length_filter] at hcount
    obtain ⟨only, honly⟩ := List.length_eq_one_iff.mp hcount.symm
    have huniq (j : ℕ) (hj : state.isUnassigned j = true) (hjrow : j ∈ columns) : j = only := by
      have hin := List.mem_filter.mpr ⟨hjrow, hj⟩
      rw [honly] at hin
      apply List.mem_singleton.mp hin
    have hunassigned := List.find?_some hk
    have hmemk := List.mem_of_find?_eq_some hk
    have hkonly := huniq k hunassigned hmemk
    use hfree, hunassigned, (hmem k).mp hmemk
    intro j hj hhits
    rw [hkonly]
    apply huniq j hj ((hmem j).mpr hhits)
  · cases hk

/-- The only free row of a singleton candidate. -/
theorem Counted.rowFor?_spec {state : Elimination F} (h : state.Counted) {row k : ℕ}
    (hrow : state.rowFor? k = some row) :
  state.isUnassigned k = true ∧ state.isFree row = true ∧ state.hits k row = true
    ∧ ∀ i, state.isFree i = true → state.hits k i = true → i = row
  := by
  unfold rowFor? at hrow
  split at hrow
  · rename_i hsingle
    rw [Bool.and_eq_true, beq_iff_eq] at hsingle
    obtain ⟨hunassigned, hone⟩ := hsingle
    rw [h.column k hunassigned, Option.some_inj] at hone
    obtain ⟨only, honly⟩ := List.length_eq_one_iff.mp hone
    rw [honly] at hrow
    cases hrow
    have hmem : row ∈ state.freeRows k := by
      rw [honly]
      apply List.mem_singleton_self
    obtain ⟨hfree, hhits⟩ := mem_freeRows.mp hmem
    use hunassigned, hfree, hhits
    intro i hi hik
    have hin := mem_freeRows.mpr ⟨hi, hik⟩
    rw [honly] at hin
    apply List.mem_singleton.mp hin
  · cases hrow

end Elimination

end RevisedSimplex
