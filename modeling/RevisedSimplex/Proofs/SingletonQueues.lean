import RevisedSimplex.Proofs.PlacementAccounts

/-!
# Queues of singletons

The singleton phase looks at rows and candidates that wait in queues.  A row enters its queue when
its count comes down to one, and a candidate when its own does, so that no singleton with an
acceptable entry is ever outside the queues; `Watched` states this.  When the queues are empty, no
acceptable singleton is left.

The queues do become empty: each turn takes one element out, and each candidate that is placed
leaves at most every row and every candidate in the queues.
-/

namespace RevisedSimplex

variable {F : Type} [Scalar F]

/-! ### Queues -/

theorem mem_enqueue {x : ℕ} :
    ∀ {list queue : List ℕ}, x ∈ enqueue queue list ↔ x ∈ queue ∨ x ∈ list
  | [], queue => by
      rw [enqueue]
      simp
  | y :: list, queue => by
      rw [enqueue, mem_enqueue, List.mem_cons]
      split
      · rename_i hy
        rw [List.contains_iff_mem] at hy
        constructor
        · tauto
        · rintro (hx | rfl | hx) <;> tauto
      · rw [List.mem_append, List.mem_singleton, or_assoc]

theorem nodup_enqueue :
    ∀ {list queue : List ℕ}, queue.Nodup → (enqueue queue list).Nodup
  | [], queue, h => h
  | x :: list, queue, h => by
      rw [enqueue]
      apply nodup_enqueue
      split
      · apply h
      · rename_i hx
        rw [List.contains_iff_mem] at hx
        rw [List.nodup_append_comm]
        exact List.nodup_cons.mpr ⟨hx, h⟩

/-! ### Singletons -/

namespace Elimination

variable {state result : Elimination F} {j k row i : ℕ} {tolerance : F}

/-- A candidate is the only one in a free row. -/
structure IsRowSingleton (state : Elimination F) (k row : ℕ) : Prop where
  free : state.isFree row = true
  unassigned : state.isUnassigned k = true
  hits : state.hits k row = true
  only : ∀ j, state.isUnassigned j = true → state.hits j row = true → j = k

/-- A row is the only free one of a candidate. -/
structure IsColumnSingleton (state : Elimination F) (k row : ℕ) : Prop where
  free : state.isFree row = true
  unassigned : state.isUnassigned k = true
  hits : state.hits k row = true
  only : ∀ i, state.isFree i = true → state.hits k i = true → i = row

theorem Counted.rowCount_eq_one (h : state.Counted) (hsingle : state.IsRowSingleton k row) :
  state.rowCount[row]? = some 1
  := by
  obtain ⟨columns, -, hnodup, hmem, hcount⟩ := h.row row hsingle.free
  have honly : columns.filter state.isUnassigned = [k] := by
    apply List.perm_singleton.mp
    apply (List.perm_ext_iff_of_nodup (hnodup.filter _) (List.nodup_singleton k)).mpr
    intro j
    rw [List.mem_filter, List.mem_singleton, hmem]
    constructor
    · rintro ⟨hhits, hj⟩
      apply hsingle.only j hj hhits
    · rintro rfl
      exact ⟨hsingle.hits, hsingle.unassigned⟩
  rw [hcount, List.countP_eq_length_filter, honly]
  rfl

theorem Counted.columnCount_eq_one (h : state.Counted)
    (hsingle : state.IsColumnSingleton k row) :
  state.freeRows k = [row] ∧ state.columnCount[k]? = some 1
  := by
  have honly : state.freeRows k = [row] := by
    apply List.perm_singleton.mp
    apply (List.perm_ext_iff_of_nodup (h.nodup_freeRows k) (List.nodup_singleton row)).mpr
    intro i
    rw [mem_freeRows, List.mem_singleton]
    constructor
    · rintro ⟨hi, hhits⟩
      apply hsingle.only i hi hhits
    · rintro rfl
      exact ⟨hsingle.free, hsingle.hits⟩
  refine ⟨honly, ?_⟩
  rw [h.column k hsingle.unassigned, honly]
  rfl

/-- A row has a candidate to pivot on exactly when it is a singleton. -/
theorem Counted.columnFor?_eq_some_iff (h : state.Counted) :
  state.columnFor? row = some k ↔ state.IsRowSingleton k row
  := by
  constructor
  · intro hk
    obtain ⟨hfree, hunassigned, hhits, honly⟩ := h.columnFor?_spec hk
    exact ⟨hfree, hunassigned, hhits, honly⟩
  · intro hsingle
    obtain ⟨columns, hcolumns, -, hmem, -⟩ := h.row row hsingle.free
    unfold columnFor?
    rw [hsingle.free, h.rowCount_eq_one hsingle, if_pos (by rfl), hcolumns, Option.bind_some]
    cases hfind : columns.find? state.isUnassigned with
    | none =>
        have hnone := List.find?_eq_none.mp hfind k ((hmem k).mpr hsingle.hits)
        cases hnone hsingle.unassigned
    | some j =>
        rw [hsingle.only j (List.find?_some hfind)
          ((hmem j).mp (List.mem_of_find?_eq_some hfind))]

/-- A candidate has a row to pivot in exactly when it is a singleton. -/
theorem Counted.rowFor?_eq_some_iff (h : state.Counted) :
  state.rowFor? k = some row ↔ state.IsColumnSingleton k row
  := by
  constructor
  · intro hrow
    obtain ⟨hunassigned, hfree, hhits, honly⟩ := h.rowFor?_spec hrow
    exact ⟨hfree, hunassigned, hhits, honly⟩
  · intro hsingle
    obtain ⟨hrows, hcount⟩ := h.columnCount_eq_one hsingle
    unfold rowFor?
    rw [hsingle.unassigned, hcount, if_pos (by rfl), hrows]
    rfl

/-! ### Singletons that are found -/

/-- The indices that are listed are those that came down to one. -/
theorem mem_of_lower? :
    ∀ {counts indices lowered singletons : List ℕ}, indices.Nodup →
      lower? counts indices = some (lowered, singletons) →
      (∀ i, i ∈ singletons ↔ i ∈ indices ∧ lowered[i]? = some 1)
        ∧ ∀ i ∉ indices, lowered[i]? = counts[i]?
  | counts, [], lowered, singletons, _, h => by
      cases h
      exact ⟨fun i => by simp, fun i _ => rfl⟩
  | counts, head :: indices, lowered, singletons, hnodup, h => by
      obtain ⟨hnot, hnodup⟩ := List.nodup_cons.mp hnodup
      rw [lower?] at h
      obtain ⟨count, hcount, h⟩ := Option.bind_eq_some_iff.mp h
      split at h
      · cases h
      · rename_i count
        obtain ⟨⟨lowered, found⟩, hrest, h⟩ := Option.bind_eq_some_iff.mp h
        cases h
        obtain ⟨hfound, hkept⟩ := mem_of_lower? hnodup hrest
        have hhead : lowered[head]? = some count := by
          rw [hkept head hnot, List.getElem?_set_self (List.getElem?_eq_some_iff.mp hcount).1]
        constructor
        · intro i
          by_cases hi : i = head
          · subst hi
            rw [hhead]
            split <;> simp_all
          · split <;> simp [hi, hfound]
        · intro i hi
          rw [List.mem_cons, not_or] at hi
          rw [hkept i hi.2, List.getElem?_set_ne fun e => hi.1 e.symm]

/-- The rows and candidates that are listed are those whose counts came down to one. -/
theorem Counted.mem_of_assign? (h : state.Counted) {rows columns : List ℕ}
    (hassign : state.assign? k row = some (result, rows, columns)) :
  (∀ i, i ∈ rows ↔ i ≠ row ∧ i ∈ state.freeRows k ∧ result.rowCount[i]? = some 1)
    ∧ ∀ j, j ∈ columns ↔ state.hits j row = true ∧ result.isUnassigned j = true
      ∧ result.columnCount[j]? = some 1
  := by
  obtain ⟨hk, hrow, -⟩ := assign?_spec hassign
  unfold assign? at hassign
  rw [if_pos (by rw [hk, hrow]; rfl)] at hassign
  obtain ⟨⟨released, found⟩, hreleased, hassign⟩ := Option.bind_eq_some_iff.mp hassign
  obtain ⟨⟨occupied, others⟩, hoccupied, hassign⟩ := Option.bind_eq_some_iff.mp hassign
  cases hassign
  unfold release? at hreleased
  obtain ⟨⟨rowCount, singletons⟩, hlower, hreleased⟩ := Option.bind_eq_some_iff.mp hreleased
  cases hreleased
  unfold occupy? at hoccupied
  obtain ⟨inRow, hinRow, hoccupied⟩ := Option.bind_eq_some_iff.mp hoccupied
  obtain ⟨⟨columnCount, singletonColumns⟩, hlowerColumns, hoccupied⟩ :=
    Option.bind_eq_some_iff.mp hoccupied
  cases hoccupied
  obtain ⟨indices, hindices, hnodup, hmem, -⟩ := h.row row hrow
  have hsame : inRow = indices := Option.some_inj.mp (hinRow.symm.trans hindices)
  subst hsame
  constructor
  · intro i
    rw [(mem_of_lower? ((h.nodup_freeRows k).filter _) hlower).1 i, List.mem_filter, bne_iff_ne]
    constructor
    · rintro ⟨⟨hi, hne⟩, hone⟩
      refine ⟨hne, hi, ?_⟩
      change (rowCount.set row 0)[i]? = some 1
      rw [List.getElem?_set_ne hne.symm, hone]
    · rintro ⟨hne, hi, hone⟩
      change (rowCount.set row 0)[i]? = some 1 at hone
      rw [List.getElem?_set_ne hne.symm] at hone
      exact ⟨⟨hi, hne⟩, hone⟩
  · intro j
    rw [(mem_of_lower? (hnodup.filter _) hlowerColumns).1 j, List.mem_filter, hmem, and_assoc]
    rfl

/-- What an assignment does to the counts and the flags. -/
theorem Counted.of_assign? (h : state.Counted) {rows columns : List ℕ}
    (hassign : state.assign? k row = some (result, rows, columns)) :
  result.Counted ∧ (∀ i, result.isFree i = (state.isFree i && i != row))
    ∧ ∀ j, result.isUnassigned j = (state.isUnassigned j && j != k)
  := by
  obtain ⟨hk, hrow, -, hfree, hassigned⟩ := assign?_spec hassign
  obtain ⟨other, _, _, hother, hcounted, -⟩ := h.assign?_eq hk hrow
  rw [hassign, Option.some_inj, Prod.mk_inj] at hother
  rw [hother.1]
  refine ⟨hcounted, ?_, ?_⟩
  · rw [← hother.1]
    apply isFree_of_set _ hfree
  · rw [← hother.1]
    apply isUnassigned_of_set _ hassigned

/-- A singleton row was one before, or it is found. -/
theorem IsRowSingleton.of_assign? (h : result.IsRowSingleton j i) (hcounted : state.Counted)
    {rows columns : List ℕ} (hassign : state.assign? k row = some (result, rows, columns)) :
  state.IsRowSingleton j i ∨ i ∈ rows
  := by
  obtain ⟨-, -, hcandidates, -⟩ := assign?_spec hassign
  obtain ⟨hresult, hfree, hunassigned⟩ := hcounted.of_assign? hassign
  have hhits := Placement.hits_congr hcandidates
  have hi := h.free
  have hj := h.unassigned
  rw [hfree, Bool.and_eq_true, bne_iff_ne] at hi
  rw [hunassigned, Bool.and_eq_true] at hj
  by_cases hk : state.hits k i = true
  · apply Or.inr
    rw [(hcounted.mem_of_assign? hassign).1, mem_freeRows]
    exact ⟨hi.2, ⟨hi.1, hk⟩, hresult.rowCount_eq_one h⟩
  · apply Or.inl
    constructor
    case free => apply hi.1
    case unassigned => apply hj.1
    case hits => rw [← hhits, h.hits]
    case only =>
      intro other hother hit
      apply h.only other
      · rw [hunassigned, hother, Bool.true_and, bne_iff_ne]
        rintro rfl
        apply hk hit
      · rw [hhits, hit]

/-- A singleton candidate was one before, or it is found. -/
theorem IsColumnSingleton.of_assign? (h : result.IsColumnSingleton j i)
    (hcounted : state.Counted) {rows columns : List ℕ}
    (hassign : state.assign? k row = some (result, rows, columns)) :
  state.IsColumnSingleton j i ∨ j ∈ columns
  := by
  obtain ⟨-, -, hcandidates, -⟩ := assign?_spec hassign
  obtain ⟨hresult, hfree, hunassigned⟩ := hcounted.of_assign? hassign
  have hhits := Placement.hits_congr hcandidates
  have hi := h.free
  have hj := h.unassigned
  rw [hfree, Bool.and_eq_true] at hi
  rw [hunassigned, Bool.and_eq_true] at hj
  by_cases hrow : state.hits j row = true
  · apply Or.inr
    rw [(hcounted.mem_of_assign? hassign).2]
    exact ⟨hrow, h.unassigned, (hresult.columnCount_eq_one h).2⟩
  · apply Or.inl
    constructor
    case free => apply hi.1
    case unassigned => apply hj.1
    case hits => rw [← hhits, h.hits]
    case only =>
      intro other hother hit
      apply h.only other
      · rw [hfree, hother, Bool.true_and, bne_iff_ne]
        rintro rfl
        apply hrow hit
      · rw [hhits, hit]

/-! ### Watching -/

/-- Every singleton with an acceptable entry waits in a queue. -/
structure Watched (tolerance : F) (state : Elimination F) (queues : SingletonQueues) : Prop where
  row : ∀ k row, state.IsRowSingleton k row → state.isAcceptable tolerance k row = true →
    row ∈ queues.rows
  column : ∀ k row, state.IsColumnSingleton k row → state.isAcceptable tolerance k row = true →
    k ∈ queues.columns

/-- No singleton has an acceptable entry. -/
def IsSettled (tolerance : F) (state : Elimination F) : Prop :=
  ∀ k row, state.IsRowSingleton k row ∨ state.IsColumnSingleton k row →
    state.isAcceptable tolerance k row = false

/-- The queues that are left after an assignment, with what was found added, hold the singletons
with acceptable entries. -/
theorem Watched.of_assign? {queues rest : SingletonQueues} (h : state.Watched tolerance queues)
    (hcounted : state.Counted) {rows columns : List ℕ}
    (hassign : state.assign? k row = some (result, rows, columns))
    (hrows : ∀ i ∈ queues.rows, i ≠ row → i ∈ rest.rows)
    (hcolumns : ∀ j ∈ queues.columns, j ≠ k → j ∈ rest.columns) :
  result.Watched tolerance (rest.add rows columns)
  := by
  obtain ⟨-, -, hcandidates, -⟩ := assign?_spec hassign
  obtain ⟨-, hfree, hunassigned⟩ := hcounted.of_assign? hassign
  have hsame (j i : ℕ) : result.isAcceptable tolerance j i = state.isAcceptable tolerance j i := by
    unfold isAcceptable
    rw [hcandidates]
  constructor
  · intro j i hsingle hacceptable
    rw [hsame] at hacceptable
    have hi := hsingle.free
    rw [hfree, Bool.and_eq_true, bne_iff_ne] at hi
    apply mem_enqueue.mpr
    rcases hsingle.of_assign? hcounted hassign with hold | hfound
    · apply Or.inl (hrows i (h.row j i hold hacceptable) hi.2)
    · apply Or.inr hfound
  · intro j i hsingle hacceptable
    rw [hsame] at hacceptable
    have hj := hsingle.unassigned
    rw [hunassigned, Bool.and_eq_true, bne_iff_ne] at hj
    apply mem_enqueue.mpr
    rcases hsingle.of_assign? hcounted hassign with hold | hfound
    · apply Or.inl (hcolumns j (h.column j i hold hacceptable) hj.2)
    · apply Or.inr hfound

theorem Watched.isSettled (h : state.Watched tolerance ⟨[], []⟩) :
  state.IsSettled tolerance
  := by
  intro k row hsingle
  rw [Bool.eq_false_iff]
  intro hacceptable
  rcases hsingle with hrow | hcolumn
  · cases h.row k row hrow hacceptable
  · cases h.column k row hcolumn hacceptable

/-- All singletons of the start are in the queues. -/
theorem Counted.watched (h : state.Counted) (hdummy : state.isFree 0 = false) (tolerance : F) :
  state.Watched tolerance ⟨state.singletonRows, state.singletonColumns⟩
  := by
  constructor
  · intro k row hsingle _
    have hfree := beq_iff_eq.mp hsingle.free
    obtain ⟨hlt, -⟩ := List.getElem?_eq_some_iff.mp hfree
    have hpos : 0 < row := by
      rw [Nat.pos_iff_ne_zero]
      rintro rfl
      rw [hsingle.free] at hdummy
      cases hdummy
    change row ∈ state.singletonRows
    unfold singletonRows
    rw [List.mem_filter, List.mem_range'_1, hsingle.free, h.rowCount_eq_one hsingle]
    exact ⟨⟨hpos, by omega⟩, rfl⟩
  · intro k row hsingle _
    have hassigned := beq_iff_eq.mp hsingle.unassigned
    obtain ⟨hlt, -⟩ := List.getElem?_eq_some_iff.mp hassigned
    rw [h.assigned_length] at hlt
    change k ∈ state.singletonColumns
    unfold singletonColumns
    rw [List.mem_filter, List.mem_range, (h.columnCount_eq_one hsingle).2]
    exact ⟨hlt, rfl⟩

end Elimination

/-! ### Turns -/

namespace SingletonQueues

variable {queues : SingletonQueues} {nrRows nrColumns : ℕ}

/-- The queues hold rows and candidates of an elimination, each of them once. -/
structure Fits (nrRows nrColumns : ℕ) (queues : SingletonQueues) : Prop where
  rows : queues.rows.Nodup ∧ ∀ row ∈ queues.rows, row < nrRows
  columns : queues.columns.Nodup ∧ ∀ k ∈ queues.columns, k < nrColumns

/-- The number of elements in the queues. -/
def length (queues : SingletonQueues) : ℕ :=
  queues.rows.length + queues.columns.length

theorem length_le_of_nodup {list : List ℕ} {n : ℕ} (h : list.Nodup ∧ ∀ x ∈ list, x < n) :
  list.length ≤ n
  := by
  have hsub := List.subperm_of_subset h.1 fun x hx => List.mem_range.mpr (h.2 x hx)
  have hle := hsub.length_le
  rw [List.length_range] at hle
  apply hle

theorem Fits.length_le (h : queues.Fits nrRows nrColumns) :
  queues.length ≤ nrRows + nrColumns
  := Nat.add_le_add (length_le_of_nodup h.rows) (length_le_of_nodup h.columns)

theorem Fits.add (h : queues.Fits nrRows nrColumns) {rows columns : List ℕ}
    (hrows : ∀ row ∈ rows, row < nrRows) (hcolumns : ∀ k ∈ columns, k < nrColumns) :
  (queues.add rows columns).Fits nrRows nrColumns
  := by
  constructor
  · refine ⟨nodup_enqueue h.rows.1, ?_⟩
    intro row hrow
    rcases mem_enqueue.mp hrow with hold | hnew
    · apply h.rows.2 row hold
    · apply hrows row hnew
  · refine ⟨nodup_enqueue h.columns.1, ?_⟩
    intro k hk
    rcases mem_enqueue.mp hk with hold | hnew
    · apply h.columns.2 k hold
    · apply hcolumns k hnew

end SingletonQueues

namespace Elimination

variable {state result : Elimination F} {k row : ℕ} {tolerance : F} {queues : SingletonQueues}

/-- The queues fit the rows and the candidates. -/
def Fits (state : Elimination F) (queues : SingletonQueues) : Prop :=
  queues.Fits state.free.length state.candidates.length

omit [Scalar F] in
theorem fits_singletons (state : Elimination F) :
  state.Fits ⟨state.singletonRows, state.singletonColumns⟩
  := by
  constructor
  · refine ⟨List.Nodup.filter _ List.nodup_range', ?_⟩
    intro row hrow
    have hrange := List.mem_range'_1.mp (List.mem_filter.mp hrow).1
    change row < state.free.length
    omega
  · refine ⟨List.nodup_range.filter _, ?_⟩
    intro k hk
    apply List.mem_range.mp (List.mem_filter.mp hk).1

/-- The number of unassigned candidates. -/
def nrUnassigned (state : Elimination F) : ℕ :=
  state.assigned.count false

/-- An assignment keeps the queues fitting, and leaves one unassigned candidate less. -/
theorem Fits.of_assign? (h : state.Fits queues) (hcounted : state.Counted)
    {rows columns : List ℕ} (hassign : state.assign? k row = some (result, rows, columns)) :
  result.Fits (queues.add rows columns) ∧ result.nrUnassigned + 1 = state.nrUnassigned
  := by
  obtain ⟨hk, -, hcandidates, hfree, hassigned⟩ := assign?_spec hassign
  obtain ⟨hrows, hcolumns⟩ := hcounted.mem_of_assign? hassign
  constructor
  · unfold Fits
    rw [hcandidates, hfree, List.length_set]
    apply SingletonQueues.Fits.add h
    · intro i hi
      obtain ⟨hi, -⟩ := mem_freeRows.mp ((hrows i).mp hi).2.1
      apply (List.getElem?_eq_some_iff.mp (beq_iff_eq.mp hi)).1
    · intro j hj
      obtain ⟨hhits, -⟩ := (hcolumns j).mp hj
      by_contra hge
      unfold hits at hhits
      rw [List.getElem?_eq_none (not_lt.mp hge)] at hhits
      cases hhits
  · have hget := beq_iff_eq.mp hk
    obtain ⟨hlt, hvalue⟩ := List.getElem?_eq_some_iff.mp hget
    have hpos : 0 < state.assigned.count false := by
      apply List.count_pos_iff.mpr
      apply List.mem_of_getElem? hget
    unfold nrUnassigned
    rw [hassigned, List.count_set hlt, hvalue]
    simp
    omega

/-- What the turns that are left are counted by. -/
def work (state : Elimination F) (queues : SingletonQueues) : ℕ :=
  queues.length + state.nrUnassigned * (state.free.length + state.candidates.length)

/-- An assignment after an element has been taken from the queues leaves no more work. -/
theorem Fits.work_le (h : state.Fits queues) (hcounted : state.Counted)
    {rows columns : List ℕ} (hassign : state.assign? k row = some (result, rows, columns)) :
  result.work (queues.add rows columns) ≤ state.work queues
  := by
  obtain ⟨hfits, hless⟩ := h.of_assign? hcounted hassign
  obtain ⟨-, -, hcandidates, hfree, -⟩ := assign?_spec hassign
  have hlength := hfits.length_le
  unfold work
  rw [hcandidates, hfree, List.length_set] at hlength ⊢
  rw [← hless, Nat.add_mul, Nat.one_mul]
  omega

/-- The work of the start, when every row and every candidate may be a singleton. -/
theorem Counted.work_singletons_le (h : state.Counted) :
  state.work ⟨state.singletonRows, state.singletonColumns⟩
    ≤ (state.candidates.length + 1) * (state.free.length + state.candidates.length)
  := by
  have hunassigned : state.nrUnassigned ≤ state.candidates.length := by
    rw [← h.assigned_length]
    apply List.count_le_length
  have hlength := state.fits_singletons.length_le
  unfold work
  rw [Nat.add_mul, Nat.one_mul, Nat.add_comm]
  apply Nat.add_le_add (Nat.mul_le_mul_right _ hunassigned) hlength

end Elimination

namespace Placement

variable {placement result : Placement F} {k row : ℕ} {tolerance : F}
  {queues rest later : SingletonQueues}

theorem assign?_of_place? {rows columns : List ℕ}
    (h : placement.place? k row = some (result, rows, columns)) :
  placement.elimination.assign? k row = some (result.elimination, rows, columns)
  := by
  unfold place? at h
  obtain ⟨candidate, -, h⟩ := Option.bind_eq_some_iff.mp h
  obtain ⟨⟨elimination, _, _⟩, hassign, h⟩ := Option.bind_eq_some_iff.mp h
  cases h
  apply hassign

/-- What the singleton phase keeps of the counts and the queues. -/
structure Watches (tolerance : F) (placement : Placement F) (queues : SingletonQueues) : Prop where
  counted : placement.elimination.Counted
  fits : placement.elimination.Fits queues
  watched : placement.elimination.Watched tolerance queues

/-- Taking a row leaves less work. -/
theorem Watches.takeRow? {rows columns : List ℕ}
    (h : placement.Watches tolerance ⟨row :: rows, columns⟩)
    (htake : takeRow? tolerance row placement ⟨rows, columns⟩ = some (result, later)) :
  result.Watches tolerance later
    ∧ result.elimination.work later < placement.elimination.work ⟨row :: rows, columns⟩
  := by
  have hfits : placement.elimination.Fits ⟨rows, columns⟩ := by
    refine ⟨⟨h.fits.rows.1.of_cons, ?_⟩, h.fits.columns⟩
    intro i hi
    apply h.fits.rows.2 i (List.mem_cons_of_mem _ hi)
  have hless : placement.elimination.work ⟨rows, columns⟩
      < placement.elimination.work ⟨row :: rows, columns⟩ := by
    unfold Elimination.work SingletonQueues.length
    simp only [List.length_cons]
    omega
  rcases takeRow?_spec htake with ⟨rfl, rfl, hnone⟩
    | ⟨k, committed, found, others, hcolumnFor, -, hcommit, hplace, rfl⟩
  · refine ⟨⟨h.counted, hfits, ?_, h.watched.column⟩, hless⟩
    intro k i hsingle hacceptable
    rcases List.mem_cons.mp (h.watched.row k i hsingle hacceptable) with rfl | hi
    · rw [hnone k (h.counted.columnFor?_eq_some_iff.mpr hsingle)] at hacceptable
      cases hacceptable
    · apply hi
  · have hassign := assign?_of_place? hplace
    obtain ⟨_, _, -, -, hcommitted⟩ := commitRaw?_spec hcommit
    obtain ⟨inverse, -, rfl⟩ := commit?_spec hcommitted
    refine ⟨⟨(h.counted.of_assign? hassign).1, (hfits.of_assign? h.counted hassign).1, ?_⟩, ?_⟩
    · apply h.watched.of_assign? h.counted hassign
      · intro i hi hne
        apply (List.mem_cons.mp hi).resolve_left hne
      · intro j hj _
        apply hj
    · apply (hfits.work_le h.counted hassign).trans_lt hless

/-- Taking a candidate leaves less work. -/
theorem Watches.takeColumn? {rows columns : List ℕ}
    (h : placement.Watches tolerance ⟨rows, k :: columns⟩)
    (htake : takeColumn? tolerance k placement ⟨rows, columns⟩ = some (result, later)) :
  result.Watches tolerance later
    ∧ result.elimination.work later < placement.elimination.work ⟨rows, k :: columns⟩
  := by
  have hfits : placement.elimination.Fits ⟨rows, columns⟩ := by
    refine ⟨h.fits.rows, h.fits.columns.1.of_cons, ?_⟩
    intro j hj
    apply h.fits.columns.2 j (List.mem_cons_of_mem _ hj)
  have hless : placement.elimination.work ⟨rows, columns⟩
      < placement.elimination.work ⟨rows, k :: columns⟩ := by
    unfold Elimination.work SingletonQueues.length
    simp only [List.length_cons]
    omega
  rcases takeColumn?_spec htake with ⟨rfl, rfl, hnone⟩
    | ⟨row, placed, found, others, hrowFor, -, hplace, rfl, rfl⟩
  · refine ⟨⟨h.counted, hfits, h.watched.row, ?_⟩, hless⟩
    intro j i hsingle hacceptable
    rcases List.mem_cons.mp (h.watched.column j i hsingle hacceptable) with rfl | hj
    · rw [hnone i (h.counted.rowFor?_eq_some_iff.mpr hsingle)] at hacceptable
      cases hacceptable
    · apply hj
  · have hassign := assign?_of_place? hplace
    refine ⟨⟨(h.counted.of_assign? hassign).1, (hfits.of_assign? h.counted hassign).1, ?_⟩, ?_⟩
    · apply h.watched.of_assign? h.counted hassign
      · intro i hi _
        apply hi
      · intro j hj hne
        apply (List.mem_cons.mp hj).resolve_left hne
    · apply (hfits.work_le h.counted hassign).trans_lt hless

/-- With a turn for each piece of work, the singleton phase leaves no acceptable singleton. -/
theorem Watches.takeSingletons?_settled :
    ∀ {fuel : ℕ} {placement result : Placement F} {queues : SingletonQueues},
      placement.Watches tolerance queues → placement.elimination.work queues ≤ fuel →
      takeSingletons? tolerance fuel placement queues = some result →
      result.elimination.IsSettled tolerance
  | 0, placement, result, ⟨[], []⟩, hwatches, _, h => by
      cases h
      apply hwatches.watched.isSettled
  | 0, _, _, ⟨_ :: _, _⟩, _, hwork, _ => by
      simp [Elimination.work, SingletonQueues.length] at hwork
  | 0, _, _, ⟨[], _ :: _⟩, _, hwork, _ => by
      simp [Elimination.work, SingletonQueues.length] at hwork
  | fuel + 1, placement, result, ⟨row :: rows, columns⟩, hwatches, hwork, h => by
      rw [takeSingletons?] at h
      obtain ⟨⟨next, queues⟩, hnext, h⟩ := Option.bind_eq_some_iff.mp h
      obtain ⟨hwatches, hless⟩ := hwatches.takeRow? hnext
      apply takeSingletons?_settled hwatches (by omega) h
  | fuel + 1, placement, result, ⟨[], k :: columns⟩, hwatches, hwork, h => by
      rw [takeSingletons?] at h
      obtain ⟨⟨next, queues⟩, hnext, h⟩ := Option.bind_eq_some_iff.mp h
      obtain ⟨hwatches, hless⟩ := hwatches.takeColumn? hnext
      apply takeSingletons?_settled hwatches (by omega) h
  | _ + 1, placement, result, ⟨[], []⟩, hwatches, _, h => by
      cases h
      apply hwatches.watched.isSettled

/-- The singleton phase ends when no acceptable singleton is left. -/
theorem placeSingletons?_settled (hcounted : placement.elimination.Counted)
    (hdummy : placement.elimination.isFree 0 = false)
    (h : placement.placeSingletons? tolerance = some result) :
  result.elimination.IsSettled tolerance
  := by
  have hwatches : placement.Watches tolerance
      ⟨placement.elimination.singletonRows, placement.elimination.singletonColumns⟩ :=
    ⟨hcounted, placement.elimination.fits_singletons, hcounted.watched hdummy tolerance⟩
  apply hwatches.takeSingletons?_settled hcounted.work_singletons_le h

end Placement

end RevisedSimplex
