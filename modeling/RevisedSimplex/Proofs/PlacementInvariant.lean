import RevisedSimplex.Placement
import RevisedSimplex.Proofs.EliminationCounts
import RevisedSimplex.Proofs.EtaMatrix
import RevisedSimplex.Proofs.ModelColumns

/-!
# The invariant of a placement

A placement keeps two kinds of accounts.

* `Placed`: a row is free exactly as long as it has no variable, and every listed variable has a
  row, or is singular, or is the owner of a candidate that is still unassigned.
* `Inverting`: the eta columns so far take the column of the variable in each pivot row to the
  unit vector of that row.  A column singleton that waits for its commit has no nonzero in a
  pivot row, in a free row, or in the row of a singleton placed after it, so that the eta columns
  up to its own commit will leave it as it stands.

Both hold at the start, and the two ways of giving a candidate a row keep them: `pivot` commits
an eta column at once, `defer` puts it off.
-/

open Matrix

namespace RevisedSimplex

variable {F : Type} [ExactScalar F]

/-! ### Candidates -/

/-- The column of a candidate. -/
def Elimination.vector (n : ℕ) (state : Elimination F) (k : ℕ) : Fin n → F :=
  SparseVector.entries n ((state.candidates[k]?.map CandidateColumn.entries).getD [])

/-- A candidate has a nonzero in a row exactly where its column is not zero. -/
theorem Elimination.hits_iff {n : ℕ} {state : Elimination F}
    (h : ∀ column ∈ state.candidates, column.entries.Ordered) (k : ℕ) (i : Fin n) :
  state.hits k i.val = true ↔ state.vector n k i ≠ 0
  := by
  unfold Elimination.hits Elimination.vector
  cases hk : state.candidates[k]? with
  | none => simp
  | some column =>
      simp only [Option.any_some, Option.map_some, Option.getD_some]
      rw [SparseVector.entries_ne_zero_iff (h column (List.mem_of_getElem? hk)).nodup]
      simp [CandidateColumn.hits]

namespace Placement

/-! ### Rows and variables -/

section Accounts

variable {F : Type} [Scalar F]

/-- Every row and every listed variable is accounted for. -/
structure Placed (model : Model F) (indices : List ℕ) (placement : Placement F) : Prop where
  counted : placement.elimination.Counted
  candidate : ∀ (k : ℕ) (column : CandidateColumn F),
    placement.elimination.candidates[k]? = some column →
      column.owner < model.nrVariables ∧ model.column? column.owner = some column.entries
  length : placement.positions.length = model.nrRows + 1
  free : ∀ i, placement.elimination.isFree i = true ↔ placement.positions[i]? = some none
  lt : ∀ i v : ℕ, placement.positions[i]? = some (some v) → v < model.nrVariables
  dummy : placement.positions[0]? = some (some 0)
  kept : ∀ v ∈ indices, some v ∈ placement.positions ∨ v ∈ placement.singular
    ∨ ∃ (k : ℕ) (column : CandidateColumn F), placement.elimination.isUnassigned k = true
      ∧ placement.elimination.candidates[k]? = some column ∧ column.owner = v

variable {model : Model F} {indices : List ℕ} {placement : Placement F} {k row : ℕ}

theorem Placed.row_lt (h : placement.Placed model indices)
    (hrow : placement.elimination.isFree row = true) :
  row < model.nrRows + 1
  := by
  obtain ⟨hlt, -⟩ := List.getElem?_eq_some_iff.mp ((h.free row).mp hrow)
  rw [← h.length]
  apply hlt

theorem Placed.exists_candidate (h : placement.Placed model indices)
    (hk : placement.elimination.isUnassigned k = true) :
  ∃ column, placement.elimination.candidates[k]? = some column
  := by
  have hassigned : placement.elimination.assigned[k]? = some false := beq_iff_eq.mp hk
  obtain ⟨hlt, -⟩ := List.getElem?_eq_some_iff.mp hassigned
  rw [h.counted.assigned_length] at hlt
  use placement.elimination.candidates[k], List.getElem?_eq_getElem hlt

/-- A free row has no variable. -/
theorem Placed.ne_of_isFree (h : placement.Placed model indices)
    (hrow : placement.elimination.isFree row = true) {i v : ℕ}
    (hi : placement.positions[i]? = some (some v)) :
  row ≠ i
  := by
  rintro rfl
  rw [(h.free row).mp hrow] at hi
  cases hi

/-- The row of the dummy is never free. -/
theorem Placed.isFree_zero (h : placement.Placed model indices) :
  placement.elimination.isFree 0 = false
  := by
  rw [Bool.eq_false_iff]
  intro hfree
  apply h.ne_of_isFree hfree h.dummy rfl

theorem Placed.column_ordered (h : placement.Placed model indices) {column : CandidateColumn F}
    (hk : placement.elimination.candidates[k]? = some column) :
  column.entries.Ordered ∧ ∀ entry ∈ column.entries, entry.1 < model.nrRows + 1
  := by
  obtain ⟨hlt, hcolumn⟩ := h.candidate k column hk
  obtain ⟨entries, hentries, hordered, hbound⟩ := model.column?_eq hlt
  rw [hcolumn] at hentries
  cases hentries
  use hordered

omit [Scalar F] in
/-- Giving a variable a row that has none takes no row from another one. -/
theorem mem_positions_set {positions : List (Option ℕ)} (hrow : positions[row]? = some none)
    {v w : ℕ} (hv : some v ∈ positions ∨ v = w) :
  some v ∈ positions.set row (some w)
  := by
  rcases hv with hv | rfl
  · obtain ⟨i, hi⟩ := List.mem_iff_getElem?.mp hv
    apply List.mem_of_getElem?
    rw [List.getElem?_set_ne, hi]
    rintro rfl
    rw [hrow] at hi
    cases hi
  · apply List.mem_of_getElem?
    apply List.getElem?_set_self (List.getElem?_eq_some_iff.mp hrow).1

/-- Giving a candidate a free row. -/
theorem Placed.place?_eq (h : placement.Placed model indices)
    (hk : placement.elimination.isUnassigned k = true)
    (hrow : placement.elimination.isFree row = true) :
  ∃ (column : CandidateColumn F) (elimination : Elimination F) (rows columns : List ℕ),
    placement.elimination.candidates[k]? = some column
      ∧ placement.place? k row
        = some
          ({ placement with
              elimination, positions := placement.positions.set row (some column.owner) },
            rows, columns)
      ∧ Placed model indices
        { placement with elimination, positions := placement.positions.set row (some column.owner) }
      ∧ elimination.candidates = placement.elimination.candidates
      ∧ (∀ i, elimination.isFree i = (placement.elimination.isFree i && i != row))
      ∧ ∀ j, elimination.isUnassigned j = (placement.elimination.isUnassigned j && j != k)
  := by
  obtain ⟨column, hcolumn⟩ := h.exists_candidate hk
  obtain ⟨elimination, rows, columns, hassign, hcounted, hcandidates, hfree, hassigned⟩ :=
    h.counted.assign?_eq hk hrow
  have hisFree := Elimination.isFree_of_set elimination.free hfree
  have hisUnassigned := Elimination.isUnassigned_of_set elimination.assigned hassigned
  have hnone := (h.free row).mp hrow
  refine ⟨column, elimination, rows, columns, hcolumn, ?_, ?_, hcandidates, hisFree,
    hisUnassigned⟩
  · unfold place?
    rw [hcolumn, Option.bind_eq_bind, Option.bind_some, hassign]
    rfl
  · constructor
    case counted => apply hcounted
    case candidate =>
      intro j other hother
      rw [hcandidates] at hother
      apply h.candidate j other hother
    case length => rw [List.length_set, h.length]
    case free =>
      intro i
      change elimination.isFree i = true ↔ _
      rw [show elimination.isFree i = _ from hisFree i, Bool.and_eq_true, h.free]
      by_cases hi : i = row
      · subst hi
        rw [List.getElem?_set_self']
        simp [hnone]
      · rw [List.getElem?_set_ne fun e => hi e.symm]
        simp [hi]
    case lt =>
      intro i v hv
      by_cases hi : i = row
      · subst hi
        rw [List.getElem?_set_self (by rw [h.length]; apply h.row_lt hrow)] at hv
        cases hv
        apply (h.candidate k column hcolumn).1
      · rw [List.getElem?_set_ne fun e => hi e.symm] at hv
        apply h.lt i v hv
    case dummy => rw [List.getElem?_set_ne (h.ne_of_isFree hrow h.dummy), h.dummy]
    case kept =>
      intro v hv
      rcases h.kept v hv with hin | hsingular | ⟨j, other, hj, hother, howner⟩
      · apply Or.inl (mem_positions_set hnone (Or.inl hin))
      · apply Or.inr (Or.inl hsingular)
      · by_cases hjk : j = k
        · subst hjk
          rw [hcolumn] at hother
          cases hother
          apply Or.inl (mem_positions_set hnone (Or.inr howner.symm))
        · refine Or.inr (Or.inr ⟨j, other, ?_, ?_, howner⟩)
          · rw [show elimination.isUnassigned j = _ from hisUnassigned j, hj]
            simpa using hjk
          · rw [hcandidates, hother]

end Accounts

variable {model : Model F} {indices : List ℕ} {placement : Placement F} {k row : ℕ}

/-- The column of a candidate is that of its variable. -/
theorem Placed.vector_eq (h : placement.Placed model indices) {column : CandidateColumn F}
    (hk : placement.elimination.candidates[k]? = some column) :
  placement.elimination.vector (model.nrRows + 1) k = model.vector column.owner
  := by
  unfold Elimination.vector Model.vector
  rw [hk, (h.candidate k column hk).2]
  rfl

/-! ### Eta columns -/

/-- The variable of each pivot row has a column that the file takes to the unit vector of the
row. -/
def Pivoted (model : Model F) (file : EtaFile F) (positions : List (Option ℕ)) : Prop :=
  ∀ i : Fin (model.nrRows + 1), i.val ∈ file.pivotRows →
    ∃ v, positions[i.val]? = some (some v)
      ∧ file.matrix (model.nrRows + 1) *ᵥ model.vector v = Pi.single i 1

/-- A column singleton that waits for its commit. -/
structure Deferred (placement : Placement F) (k row : ℕ) : Prop where
  hits : placement.elimination.hits k row = true
  placed : ∃ column : CandidateColumn F, placement.elimination.candidates[k]? = some column
    ∧ placement.positions[row]? = some (some column.owner)
  unpivoted : row ∉ placement.file.pivotRows
  pivoted : ∀ i ∈ placement.file.pivotRows, placement.elimination.hits k i = false
  free : ∀ i, placement.elimination.isFree i = true → placement.elimination.hits k i = false

omit [ExactScalar F] in
theorem hits_congr [Scalar F] {first second : Elimination F}
    (h : first.candidates = second.candidates) (k row : ℕ) :
  first.hits k row = second.hits k row
  := by
  unfold Elimination.hits
  rw [h]

/-- A column begins to wait when it is given its only free row and has no nonzero in a pivot
row. -/
theorem Deferred.start {result : Placement F}
    (hcandidates : result.elimination.candidates = placement.elimination.candidates)
    (hfree : ∀ i, result.elimination.isFree i = (placement.elimination.isFree i && i != row))
    (hhits : placement.elimination.hits k row = true)
    (honly : ∀ i, placement.elimination.isFree i = true → placement.elimination.hits k i = true →
      i = row)
    (hnew : row ∉ result.file.pivotRows)
    (hpivotRows : ∀ i ∈ result.file.pivotRows, placement.elimination.hits k i = false)
    (hplaced : ∃ column : CandidateColumn F, placement.elimination.candidates[k]? = some column
      ∧ result.positions[row]? = some (some column.owner)) :
  result.Deferred k row
  := by
  have hsame := hits_congr hcandidates k
  constructor
  case hits => rw [hsame, hhits]
  case placed =>
    rw [hcandidates]
    apply hplaced
  case unpivoted => apply hnew
  case pivoted =>
    intro i hi
    rw [hsame]
    apply hpivotRows i hi
  case free =>
    intro i hi
    rw [hfree, Bool.and_eq_true] at hi
    rw [hsame, Bool.eq_false_iff]
    intro hhits
    rw [honly i hi.1 hhits] at hi
    simp at hi

/-- A column that waits goes on waiting while only free rows are pivoted on. -/
theorem Deferred.mono {result : Placement F} (h : placement.Deferred k row)
    (hcandidates : result.elimination.candidates = placement.elimination.candidates)
    (hposition : result.positions[row]? = placement.positions[row]?)
    (hpivotRows : ∀ i ∈ result.file.pivotRows, i ∈ placement.file.pivotRows
      ∨ placement.elimination.isFree i = true ∧ i ≠ row)
    (hfree : ∀ i, result.elimination.isFree i = true → placement.elimination.isFree i = true) :
  result.Deferred k row
  := by
  have hhits := hits_congr hcandidates k
  constructor
  case hits => rw [hhits, h.hits]
  case placed =>
    rw [hcandidates, hposition]
    apply h.placed
  case unpivoted =>
    intro hrow
    rcases hpivotRows row hrow with hold | ⟨-, hne⟩
    · apply h.unpivoted hold
    · apply hne rfl
  case pivoted =>
    intro i hi
    rw [hhits]
    rcases hpivotRows i hi with hold | ⟨hi, -⟩
    · apply h.pivoted i hold
    · apply h.free i hi
  case free =>
    intro i hi
    rw [hhits]
    apply h.free i (hfree i hi)

/-- The eta columns invert what has been pivoted on, and the deferred columns can be committed as
they stand. -/
structure Inverting (model : Model F) (placement : Placement F) : Prop where
  fits : placement.file.Fits (model.nrRows + 1)
  staged : placement.file.staged = none
  pivoted : Pivoted model placement.file placement.positions
  own : ∀ i v : ℕ, placement.positions[i]? = some (some v) → i ∉ placement.file.pivotRows →
    v = i ∨ ∃ k, (k, i) ∈ placement.deferred
  deferred : ∀ k row, (k, row) ∈ placement.deferred → placement.Deferred k row
  order : placement.deferred.Pairwise fun later earlier =>
    placement.elimination.hits earlier.1 later.2 = false ∧ later.2 ≠ earlier.2

/-- Committing a column in a new row that has got the variable of the column. -/
theorem Pivoted.commit {file : EtaFile F} {positions : List (Option ℕ)}
    {column : EtaColumn F} {w : ℕ} (h : Pivoted model file positions) (given : List (Option ℕ))
    (hfile : file.Fits (model.nrRows + 1)) (hfits : column.Fits (model.nrRows + 1))
    (hpivot : column.pivot ≠ 0) (hnew : column.pivotRow ∉ file.pivotRows)
    (hagree : ∀ i ∈ file.pivotRows, given[i]? = positions[i]?)
    (hrow : given[column.pivotRow]? = some (some w))
    (hw : file.matrix (model.nrRows + 1) *ᵥ model.vector w = column.entries (model.nrRows + 1)) :
  ∃ committed : EtaFile F, (file.stage column).commit? false = some (true, committed)
    ∧ committed.staged = none ∧ committed.Fits (model.nrRows + 1)
    ∧ committed.pivotRows = file.pivotRows ++ [column.pivotRow]
    ∧ Pivoted model committed given
  := by
  obtain ⟨committed, inverse, hcommit, hstaged, hcommitted, hcolumns, hinverse, hunit, hkeep⟩ :=
    hfile.commit?_stage hfits hpivot false
  have hpivotRows : committed.pivotRows = file.pivotRows ++ [column.pivotRow] := by
    unfold EtaFile.pivotRows
    rw [hcolumns, List.map_append, List.map_singleton, hinverse]
  refine ⟨committed, hcommit, hstaged, hcommitted, hpivotRows, ?_⟩
  intro i hi
  rw [hpivotRows, List.mem_append, List.mem_singleton] at hi
  rcases hi with hold | hi
  · obtain ⟨v, hv, hinvert⟩ := h i hold
    use v
    constructor
    · rw [hagree i.val hold, hv]
    · rw [hkeep, hinvert]
      rw [hinvert, Pi.single_eq_of_ne]
      intro he
      apply hnew
      have hval : column.pivotRow = i.val := congrArg Fin.val he
      rw [hval]
      apply hold
  · have hfin : i = hfits.row := Fin.ext hi
    subst hfin
    use w, hrow
    apply hunit _ hw

/-- A free row has not been pivoted on. -/
theorem Inverting.not_mem_pivotRows (h : placement.Inverting model)
    (hplaced : placement.Placed model indices)
    (hrow : placement.elimination.isFree row = true) :
  row ∉ placement.file.pivotRows
  := by
  intro hmem
  obtain ⟨v, hv, -⟩ := h.pivoted ⟨row, hplaced.row_lt hrow⟩ hmem
  apply hplaced.ne_of_isFree hrow hv rfl

/-- The columns that wait go on waiting while a candidate is given a free row, whether the row is
pivoted on or not. -/
theorem Inverting.deferred_of_given (h : placement.Inverting model)
    (hplaced : placement.Placed model indices) (hrow : placement.elimination.isFree row = true)
    {result : Placement F} {owner : ℕ}
    (hcandidates : result.elimination.candidates = placement.elimination.candidates)
    (hpositions : result.positions = placement.positions.set row (some owner))
    (hpivotRows : ∀ i ∈ result.file.pivotRows, i ∈ placement.file.pivotRows ∨ i = row)
    (hfree : ∀ i, result.elimination.isFree i = (placement.elimination.isFree i && i != row))
    {j i : ℕ} (hji : (j, i) ∈ placement.deferred) :
  result.Deferred j i ∧ row ≠ i
  := by
  have hdeferred := h.deferred j i hji
  obtain ⟨waiting, -, hposition⟩ := hdeferred.placed
  have hne := hplaced.ne_of_isFree hrow hposition
  refine ⟨?_, hne⟩
  apply hdeferred.mono hcandidates
  · rw [hpositions, List.getElem?_set_ne hne]
  · intro r hr
    rcases hpivotRows r hr with hold | rfl
    · apply Or.inl hold
    · apply Or.inr ⟨hrow, hne⟩
  · intro r hr
    rw [hfree, Bool.and_eq_true] at hr
    apply hr.1

/-- The order of the columns that wait depends on the candidates alone. -/
theorem Inverting.order_congr (h : placement.Inverting model) {elimination : Elimination F}
    (hcandidates : elimination.candidates = placement.elimination.candidates) :
  placement.deferred.Pairwise fun later earlier =>
    elimination.hits earlier.1 later.2 = false ∧ later.2 ≠ earlier.2
  := by
  apply h.order.imp
  intro later earlier hpair
  rw [hits_congr hcandidates]
  apply hpair

/-- Committing the column of a candidate and giving the candidate the pivot row. -/
theorem Inverting.pivot (h : placement.Inverting model) (hplaced : placement.Placed model indices)
    {column : EtaColumn F} (hk : placement.elimination.isUnassigned k = true)
    (hrow : placement.elimination.isFree column.pivotRow = true)
    (hfits : column.Fits (model.nrRows + 1)) (hpivot : column.pivot ≠ 0)
    (hcolumn : placement.file.matrix (model.nrRows + 1)
      *ᵥ placement.elimination.vector (model.nrRows + 1) k = column.entries (model.nrRows + 1)) :
  ∃ (committed result : Placement F) (rows columns : List ℕ),
    placement.commit? column = some committed
      ∧ committed.place? k column.pivotRow = some (result, rows, columns)
      ∧ result.Placed model indices ∧ result.Inverting model
      ∧ result.elimination.candidates = placement.elimination.candidates
      ∧ result.file.pivotRows = placement.file.pivotRows ++ [column.pivotRow]
      ∧ ∀ j, result.elimination.isUnassigned j
        = (placement.elimination.isUnassigned j && j != k)
  := by
  have hnew := h.not_mem_pivotRows hplaced hrow
  have hold (i : ℕ) (hi : i ∈ placement.file.pivotRows) : column.pivotRow ≠ i := by
    rintro rfl
    apply hnew hi
  obtain ⟨candidate, hcandidate⟩ := hplaced.exists_candidate hk
  have hvector := hplaced.vector_eq hcandidate
  obtain ⟨file, hcommit, hstaged, hfile, hpivotRows, hpivoted⟩ :=
    h.pivoted.commit (placement.positions.set column.pivotRow (some candidate.owner))
      h.fits hfits hpivot hnew (fun i hi => List.getElem?_set_ne (hold i hi))
      (List.getElem?_set_self (by rw [hplaced.length]; apply hfits.pivotRow_lt))
      (by rw [← hvector, hcolumn])
  let committed : Placement F := { placement with file }
  have hcommitted : committed.Placed model indices := { hplaced with }
  obtain ⟨other, elimination, rows, columns, hother, hplace, hresult, hcandidates, hfree,
    hunassigned⟩ := hcommitted.place?_eq hk hrow
  have hsame : other = candidate := Option.some_inj.mp (hother.symm.trans hcandidate)
  subst hsame
  refine ⟨committed, _, rows, columns, ?_, hplace, hresult, ?_, hcandidates, hpivotRows,
    hunassigned⟩
  · unfold commit?
    rw [hcommit]
    rfl
  · constructor
    case fits => apply hfile
    case staged => apply hstaged
    case pivoted => apply hpivoted
    case own =>
      intro i v hv hi
      rw [hpivotRows, List.mem_append, List.mem_singleton, not_or] at hi
      rw [List.getElem?_set_ne fun e => hi.2 e.symm] at hv
      apply h.own i v hv hi.1
    case deferred =>
      intro j i hji
      apply (h.deferred_of_given hplaced hrow hcandidates rfl _ hfree hji).1
      intro r hr
      rw [hpivotRows, List.mem_append, List.mem_singleton] at hr
      apply hr
    case order => apply h.order_congr hcandidates

/-- Giving a candidate its only free row, its commit put off.  The candidate has no nonzero in a
pivot row. -/
theorem Inverting.defer (h : placement.Inverting model) (hplaced : placement.Placed model indices)
    (hk : placement.elimination.isUnassigned k = true)
    (hrow : placement.elimination.isFree row = true)
    (hhits : placement.elimination.hits k row = true)
    (honly : ∀ i, placement.elimination.isFree i = true → placement.elimination.hits k i = true →
      i = row)
    (hpivotRows : ∀ i ∈ placement.file.pivotRows, placement.elimination.hits k i = false) :
  ∃ (result : Placement F) (rows columns : List ℕ),
    placement.place? k row = some (result, rows, columns)
      ∧ Placed model indices { result with deferred := (k, row) :: result.deferred }
      ∧ Inverting model { result with deferred := (k, row) :: result.deferred }
      ∧ result.elimination.candidates = placement.elimination.candidates
      ∧ result.file = placement.file
      ∧ ∀ j, result.elimination.isUnassigned j
        = (placement.elimination.isUnassigned j && j != k)
  := by
  obtain ⟨candidate, elimination, rows, columns, hcandidate, hplace, hresult, hcandidates, hfree,
    hunassigned⟩ := hplaced.place?_eq hk hrow
  refine ⟨_, rows, columns, hplace, { hresult with }, ?_, hcandidates, rfl, hunassigned⟩
  have hgiven {j i : ℕ} (hji : (j, i) ∈ placement.deferred) :
      Deferred
        { placement with
          elimination
          positions := placement.positions.set row (some candidate.owner)
          deferred := (k, row) :: placement.deferred } j i ∧ row ≠ i := by
    apply h.deferred_of_given hplaced hrow hcandidates rfl _ hfree hji
    intro r hr
    apply Or.inl hr
  constructor
  case fits => apply h.fits
  case staged => apply h.staged
  case pivoted =>
    intro i hi
    obtain ⟨v, hv, hinvert⟩ := h.pivoted i hi
    use v
    constructor
    · rw [List.getElem?_set_ne (hplaced.ne_of_isFree hrow hv), hv]
    · apply hinvert
  case own =>
    intro i v hv hi
    by_cases hir : i = row
    · subst hir
      apply Or.inr ⟨k, List.mem_cons_self⟩
    · rw [List.getElem?_set_ne fun e => hir e.symm] at hv
      rcases h.own i v hv hi with hown | ⟨j, hj⟩
      · apply Or.inl hown
      · apply Or.inr ⟨j, List.mem_cons_of_mem _ hj⟩
  case deferred =>
    intro j i hji
    rcases List.mem_cons.mp hji with hhead | htail
    · cases hhead
      refine Deferred.start hcandidates hfree hhits honly ?_ ?_ ⟨candidate, hcandidate, ?_⟩
      · apply h.not_mem_pivotRows hplaced hrow
      · apply hpivotRows
      · apply List.getElem?_set_self
        rw [hplaced.length]
        apply hplaced.row_lt hrow
    · apply (hgiven htail).1
  case order =>
    apply List.pairwise_cons.mpr
    constructor
    · rintro ⟨j, i⟩ hji
      constructor
      · change elimination.hits j row = false
        rw [hits_congr hcandidates]
        apply (h.deferred j i hji).free row hrow
      · apply (hgiven hji).2
    · apply h.order_congr hcandidates

end Placement

end RevisedSimplex
