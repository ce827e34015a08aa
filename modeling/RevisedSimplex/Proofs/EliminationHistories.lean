import RevisedSimplex.Proofs.FactorizationAccounts
import RevisedSimplex.Proofs.SingletonQueues

/-!
# Changes of an elimination

A factorization changes an elimination in two ways: a candidate gets a row, or it is dropped.
`Change` lists them, and `Allowed` says which ones may be asked for.

The counts of a `Counted` elimination are those of `CountsExactly`: for a free row the number of
unassigned candidates with a nonzero in it, for an unassigned candidate the number of free rows in
which it has one.  So no count is lowered below zero by a change that is allowed.  When the
singletons are settled, a count of one goes with an entry that is too small to pivot on.
-/

namespace RevisedSimplex

variable {F : Type} [Scalar F]

/-- Counting below a bound comes to the length of a list of the same numbers, each of them once. -/
theorem countP_range_eq_length {n : ℕ} {p : ℕ → Bool} {list : List ℕ} (hnodup : list.Nodup)
    (hmem : ∀ x, x ∈ list ↔ x < n ∧ p x = true) :
  (List.range n).countP p = list.length
  := by
  rw [List.countP_eq_length_filter]
  apply List.Perm.length_eq
  apply (List.perm_ext_iff_of_nodup (List.nodup_range.filter p) hnodup).mpr
  intro x
  rw [List.mem_filter, List.mem_range, hmem]

namespace Elimination

variable {state after : Elimination F} {j k row i : ℕ} {tolerance : F}

/-! ### Numbers of nonzeros -/

/-- The number of unassigned candidates with a nonzero in a row. -/
def nrCandidatesIn (state : Elimination F) (row : ℕ) : ℕ :=
  (List.range state.candidates.length).countP fun k => state.isUnassigned k && state.hits k row

/-- The number of free rows in which a candidate has a nonzero. -/
def nrFreeRowsOf (state : Elimination F) (k : ℕ) : ℕ :=
  (List.range state.free.length).countP fun i => state.isFree i && state.hits k i

/-- The counts of free rows and of unassigned candidates are the numbers that they stand for. -/
structure CountsExactly (state : Elimination F) : Prop where
  row : ∀ i, state.isFree i = true → state.rowCount[i]? = some (state.nrCandidatesIn i)
  column : ∀ k, state.isUnassigned k = true →
    state.columnCount[k]? = some (state.nrFreeRowsOf k)

omit [Scalar F] in
theorem lt_of_isFree (h : state.isFree i = true) :
  i < state.free.length
  := (List.getElem?_eq_some_iff.mp (beq_iff_eq.mp h)).1

theorem lt_of_hits (h : state.hits k i = true) :
  k < state.candidates.length
  := by
  obtain ⟨column, hcolumn, -⟩ := exists_of_hits h
  apply (List.getElem?_eq_some_iff.mp hcolumn).1

theorem Counted.countsExactly (h : state.Counted) :
  state.CountsExactly
  := by
  constructor
  case row =>
    intro i hi
    obtain ⟨columns, -, hnodup, hmem, hcount⟩ := h.row i hi
    rw [hcount, List.countP_eq_length_filter]
    congr 1
    symm
    apply countP_range_eq_length (hnodup.filter _)
    intro k
    rw [List.mem_filter, hmem, Bool.and_eq_true]
    constructor
    · rintro ⟨hhits, hk⟩
      exact ⟨lt_of_hits hhits, hk, hhits⟩
    · rintro ⟨-, hk, hhits⟩
      exact ⟨hhits, hk⟩
  case column =>
    intro k hk
    rw [h.column k hk]
    congr 1
    symm
    apply countP_range_eq_length (h.nodup_freeRows k)
    intro i
    rw [mem_freeRows, Bool.and_eq_true]
    constructor
    · rintro ⟨hi, hhits⟩
      exact ⟨lt_of_isFree hi, hi, hhits⟩
    · rintro ⟨-, hi, hhits⟩
      exact ⟨hi, hhits⟩

/-! ### Changes -/

/-- The ways to change an elimination. -/
inductive Change where
  /-- A candidate gets a row. -/
  | assign (k row : ℕ)
  /-- A candidate is dropped. -/
  | drop (k : ℕ)

/-- The elimination after a change. -/
def Change.after? (state : Elimination F) : Change → Option (Elimination F)
  | assign k row => (state.assign? k row).map Prod.fst
  | drop k => state.drop? k

/-- The changes that may be asked for. -/
def Change.Allowed (state : Elimination F) : Change → Prop
  | assign k row => state.isUnassigned k = true ∧ state.isFree row = true
  | drop k => state.isUnassigned k = true

/-- A change that may be asked for lowers no count below zero, and keeps the counts exact. -/
theorem Counted.exists_change (h : state.Counted) {change : Change}
    (hallowed : change.Allowed state) :
  ∃ after, change.after? state = some after ∧ after.Counted
  := by
  cases change with
  | assign k row =>
      obtain ⟨after, rows, columns, hassign, hcounted, -⟩ := h.assign?_eq hallowed.1 hallowed.2
      exact ⟨after, Option.map_eq_some_iff.mpr ⟨_, hassign, rfl⟩, hcounted⟩
  | drop k =>
      obtain ⟨after, hdrop, hcounted, -⟩ := h.drop?_eq hallowed
      exact ⟨after, hdrop, hcounted⟩

/-! ### Singletons -/

/-- A candidate with a nonzero in a free row with a count of one is the only one there. -/
theorem Counted.isRowSingleton (h : state.Counted) (hk : state.isUnassigned k = true)
    (hrow : state.isFree row = true) (hhits : state.hits k row = true)
    (hone : state.rowCount[row]? = some 1) :
  state.IsRowSingleton k row
  := by
  obtain ⟨columns, hcolumns, -, hmem, -⟩ := h.row row hrow
  have hsome : ∃ other, state.columnFor? row = some other := by
    unfold columnFor?
    rw [hrow, hone, if_pos (by rfl), hcolumns, Option.bind_some, ← Option.isSome_iff_exists,
      List.find?_isSome]
    exact ⟨k, (hmem k).mpr hhits, hk⟩
  obtain ⟨other, hother⟩ := hsome
  have hsingle := h.columnFor?_eq_some_iff.mp hother
  rw [hsingle.only k hk hhits]
  apply hsingle

/-- A free row in which a candidate with a count of one has a nonzero is its only one. -/
theorem Counted.isColumnSingleton (h : state.Counted) (hk : state.isUnassigned k = true)
    (hrow : state.isFree row = true) (hhits : state.hits k row = true)
    (hone : state.columnCount[k]? = some 1) :
  state.IsColumnSingleton k row
  := by
  have hmem := mem_freeRows.mpr ⟨hrow, hhits⟩
  have hsome : ∃ other, state.rowFor? k = some other := by
    unfold rowFor?
    rw [hk, hone, if_pos (by rfl), ← Option.isSome_iff_exists, List.isSome_head?]
    apply List.ne_nil_of_mem hmem
  obtain ⟨other, hother⟩ := hsome
  have hsingle := h.rowFor?_eq_some_iff.mp hother
  rw [hsingle.only row hrow hhits]
  apply hsingle

/-- The entry of a candidate in a row as it stands. -/
def rawEntry? (state : Elimination F) (k row : ℕ) : Option F :=
  state.candidates[k]?.bind fun column => column.entries.valueAt? row

/-- Where a free row or an unassigned candidate has a count of one, the entry that it counts does
not reach the tolerance. -/
def NoneReaches (tolerance : F) (state : Elimination F) : Prop :=
  ∀ k row, state.isUnassigned k = true → state.isFree row = true → state.hits k row = true →
    state.rowCount[row]? = some 1 ∨ state.columnCount[k]? = some 1 →
    ∃ value, state.rawEntry? k row = some value ∧ ¬ tolerance ≤ Scalar.magnitude value

/-- Settled singletons do not reach the tolerance. -/
theorem Counted.noneReaches (h : state.Counted) (hsettled : state.IsSettled tolerance) :
  state.NoneReaches tolerance
  := by
  intro k row hk hrow hhits hone
  have hsingle : state.IsRowSingleton k row ∨ state.IsColumnSingleton k row := by
    apply hone.imp
    · apply h.isRowSingleton hk hrow hhits
    · apply h.isColumnSingleton hk hrow hhits
  have hrefused := hsettled k row hsingle
  obtain ⟨column, hcolumn, hhits⟩ := exists_of_hits hhits
  obtain ⟨value, hvalue, -⟩ :=
    column.exists_valueAt? (h.ordered column (List.mem_of_getElem? hcolumn)) hhits
  unfold isAcceptable at hrefused
  rw [hcolumn, Option.bind_some, hvalue, Option.any_some, decide_eq_false_iff_not] at hrefused
  refine ⟨value, ?_, hrefused⟩
  unfold rawEntry?
  rw [hcolumn, Option.bind_some, hvalue]

end Elimination

end RevisedSimplex
