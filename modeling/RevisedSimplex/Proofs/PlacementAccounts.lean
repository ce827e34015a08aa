import RevisedSimplex.Proofs.PlacedBasis
import RevisedSimplex.Proofs.PlacementShape
import Mathlib.Data.List.Nodup
import Mathlib.Data.List.Perm.Basic

/-!
# The accounts of a placement

Each given structural variable is in one of three places: it waits as an unassigned candidate, it
holds a row, or it is singular.  The three lists make up the given ones up to order, and so they do
after each step, which moves one variable from the first list to one of the others.  In the same
way the pivots of the file, with those of the columns that wait for their commit, make up the rows
that structural variables hold.

At the end no candidate is left and no column waits, so that every variable is found once, and
every pivot.  This asks nothing of the numbers, and nothing of the tolerances.
-/

namespace RevisedSimplex

/-! ### Lists -/

/-- Setting an entry that a filter passes over to one that it keeps. -/
theorem perm_filter_set {α : Type} {p : α → Bool} {list : List α} {i : ℕ} {old new : α}
    (hold : list[i]? = some old) (hpass : p old = false) (hkeep : p new = true) :
  ((list.set i new).filter p).Perm (new :: list.filter p)
  := by
  obtain ⟨hi, rfl⟩ := List.getElem?_eq_some_iff.mp hold
  have hset := (List.set_perm_cons_eraseIdx hi new).filter p
  have hrest := (List.getElem_cons_eraseIdx_perm hi).filter p
  rw [List.filter_cons_of_pos hkeep] at hset
  rw [List.filter_cons_of_neg (by rw [hpass]; exact Bool.false_ne_true)] at hrest
  apply hset.trans
  apply List.Perm.cons
  apply hrest

/-- Reading all entries of a list. -/
theorem filterMap_range_getElem? {α β : Type} (f : α → β) (list : List α) :
  ((List.range list.length).filterMap fun k => list[k]?.map f) = list.map f
  := by
  induction list with
  | nil => rfl
  | cons a list ih =>
      rw [List.length_cons, List.range_succ_eq_map, List.filterMap_cons, List.filterMap_map]
      change f a :: (List.range list.length).filterMap (fun k => list[k]?.map f) = _
      rw [ih]
      rfl

/-- The structural variables among those at the positions, with their rows. -/
def structuralRows (nrRows : ℕ) (positions : List ℕ) : List (ℕ × ℕ) :=
  (positions.mapIdx Prod.mk).filter fun pair => nrRows < pair.2

theorem mem_structuralRows {nrRows : ℕ} {positions : List ℕ} {i v : ℕ} :
  (i, v) ∈ structuralRows nrRows positions ↔ positions[i]? = some v ∧ nrRows < v
  := by
  unfold structuralRows
  rw [List.mem_filter, decide_eq_true_eq, List.mem_mapIdx]
  constructor
  · rintro ⟨⟨j, hj, hpair⟩, hlt⟩
    cases hpair
    exact ⟨List.getElem?_eq_getElem hj, hlt⟩
  · rintro ⟨hv, hlt⟩
    obtain ⟨hi, rfl⟩ := List.getElem?_eq_some_iff.mp hv
    exact ⟨⟨i, hi, rfl⟩, hlt⟩

/-- The structural variables that hold a row are those among the positions. -/
theorem map_snd_structuralRows (nrRows : ℕ) (positions : List ℕ) :
  (structuralRows nrRows positions).map Prod.snd = positions.filter fun v => nrRows < v
  := by
  have hpositions : (positions.mapIdx Prod.mk).map Prod.snd = positions := by
    apply List.ext_getElem?
    intro i
    rw [List.getElem?_map, List.getElem?_mapIdx, Option.map_map]
    apply Option.map_id'
  unfold structuralRows
  conv_rhs => rw [← hpositions, List.filter_map]
  rfl

/-- Giving a structural variable the row of a slack. -/
theorem structuralRows_set {nrRows : ℕ} {positions : List ℕ} {i slack v : ℕ}
    (hi : positions[i]? = some slack) (hslack : slack ≤ nrRows) (hv : nrRows < v) :
  (structuralRows nrRows (positions.set i v)).Perm
    ((i, v) :: structuralRows nrRows positions)
  := by
  unfold structuralRows
  rw [List.mapIdx_set]
  have hpair : (positions.mapIdx Prod.mk)[i]? = some (i, slack) := by
    rw [List.getElem?_mapIdx, hi]
    rfl
  apply perm_filter_set hpair
  · apply decide_eq_false (not_lt.mpr hslack)
  · apply decide_eq_true hv

/-! ### Accounts of a basis -/

/-- Every given variable is found once, at its position or among the singular ones, every row has
a variable, and the pivots are the rows of the structural variables. -/
structure Accounts (nrRows : ℕ) (indices positions singular : List ℕ) (pivots : List (ℕ × ℕ)) :
    Prop where
  length : positions.length = nrRows + 1
  nodup : positions.Nodup
  dummy : positions[0]? = some 0
  slack : ∀ i ∈ indices, i ≤ nrRows → positions[i]? = some i
  structural : ∀ v ∈ indices, nrRows < v →
    v ∈ positions ∧ v ∉ singular ∨ v ∉ positions ∧ singular.count v = 1
  singular : ∀ v ∈ singular, v ∈ indices ∧ nrRows < v
  row : ∀ i v : ℕ, positions[i]? = some v → v = i ∨ v ∈ indices ∧ nrRows < v
  pivots_nodup : pivots.Nodup
  mem_pivots : ∀ i v : ℕ,
    (i, v) ∈ pivots ↔ 1 ≤ i ∧ positions[i]? = some v ∧ nrRows < v

/-- Positions are distinct when the structural variables among them are, and all other variables
stand in their own rows. -/
theorem nodup_of_structuralRows {nrRows : ℕ} {positions : List ℕ}
    (hown : ∀ i v : ℕ, positions[i]? = some v → v ≤ nrRows → v = i)
    (hplaced : ((structuralRows nrRows positions).map Prod.snd).Nodup) :
  positions.Nodup
  := by
  apply List.nodup_iff_getElem?_ne_getElem?.mpr
  intro i j hij hj heq
  rw [List.getElem?_eq_getElem hj] at heq
  have hv : positions[j]? = some positions[j] := List.getElem?_eq_getElem hj
  obtain hle | hgt := le_or_gt positions[j] nrRows
  · have hi := hown i _ heq hle
    have hj := hown j _ hv hle
    omega
  · have hpair := List.inj_on_of_nodup_map hplaced (mem_structuralRows.mpr ⟨heq, hgt⟩)
      (mem_structuralRows.mpr ⟨hv, hgt⟩) rfl
    rw [Prod.mk_inj] at hpair
    omega

/-- The accounts follow from the laws that the steps of a placement keep. -/
theorem Accounts.of_perm {nrRows : ℕ} {indices positions singular : List ℕ}
    {pivots : List (ℕ × ℕ)} (hindices : indices.Nodup) (hlength : positions.length = nrRows + 1)
    (hslacks : ∀ v ∈ indices, v ≤ nrRows → positions[v]? = some v)
    (hown : ∀ i v : ℕ, positions[i]? = some v → v ≤ nrRows → v = i)
    (hdummy : positions[0]? = some 0)
    (hvariables : (positions.filter (fun v => nrRows < v) ++ singular).Perm
      (indices.filter fun v => nrRows < v))
    (hpivots : pivots.Perm (structuralRows nrRows positions)) :
  Accounts nrRows indices positions singular pivots
  := by
  have hnodup := hvariables.nodup_iff.mpr (hindices.filter _)
  obtain ⟨hplaced, hsingular, hdisjoint⟩ := List.nodup_append.mp hnodup
  have hmem (v : ℕ) : (v ∈ positions ∧ nrRows < v ∨ v ∈ singular) ↔ v ∈ indices ∧ nrRows < v := by
    have hmem := hvariables.mem_iff (a := v)
    simpa only [List.mem_append, List.mem_filter, decide_eq_true_eq] using hmem
  rw [← map_snd_structuralRows] at hplaced
  constructor
  case length => apply hlength
  case nodup => apply nodup_of_structuralRows hown hplaced
  case dummy => apply hdummy
  case slack => apply hslacks
  case structural =>
    intro v hv hgt
    rcases (hmem v).mpr ⟨hv, hgt⟩ with hposition | hout
    · refine Or.inl ⟨hposition.1, ?_⟩
      intro hout
      apply hdisjoint v (List.mem_filter.mpr ⟨hposition.1, decide_eq_true hgt⟩) v hout rfl
    · refine Or.inr ⟨?_, List.count_eq_one_of_mem hsingular hout⟩
      intro hposition
      apply hdisjoint v (List.mem_filter.mpr ⟨hposition, decide_eq_true hgt⟩) v hout rfl
  case singular =>
    intro v hv
    apply (hmem v).mp (Or.inr hv)
  case row =>
    intro i v hv
    obtain hle | hgt := le_or_gt v nrRows
    · apply Or.inl (hown i v hv hle)
    · apply Or.inr ((hmem v).mp (Or.inl ⟨List.mem_of_getElem? hv, hgt⟩))
  case pivots_nodup => apply hpivots.nodup_iff.mpr (List.Nodup.of_map _ hplaced)
  case mem_pivots =>
    intro i v
    rw [hpivots.mem_iff, mem_structuralRows]
    constructor
    · rintro ⟨hv, hgt⟩
      refine ⟨?_, hv, hgt⟩
      rw [Nat.one_le_iff_ne_zero]
      rintro rfl
      rw [hdummy, Option.some_inj] at hv
      omega
    · rintro ⟨-, hv, hgt⟩
      exact ⟨hv, hgt⟩

section Steps

variable {F : Type} [Scalar F]

/-- The pivot rows of the committed columns, with their variables. -/
def EtaFile.pivots (file : EtaFile F) : List (ℕ × ℕ) :=
  file.columns.map fun column => (column.pivotRow, column.owner)

/-- The variables of the unassigned candidates. -/
def Elimination.waiting (state : Elimination F) : List ℕ :=
  ((List.range state.candidates.length).filter state.isUnassigned).filterMap fun k =>
    state.candidates[k]?.map CandidateColumn.owner

omit [Scalar F] in
/-- A candidate that is no longer unassigned waits no more. -/
theorem Elimination.perm_waiting {state result : Elimination F} {k : ℕ}
    {candidate : CandidateColumn F} (hk : state.isUnassigned k = true)
    (hcandidate : state.candidates[k]? = some candidate)
    (hcandidates : result.candidates = state.candidates)
    (hassigned : result.assigned = state.assigned.set k true) :
  state.waiting.Perm (candidate.owner :: result.waiting)
  := by
  have hunassigned : result.isUnassigned = fun j => state.isUnassigned j && j != k := by
    funext j
    apply isUnassigned_of_set _ hassigned
  have hmem : k ∈ (List.range state.candidates.length).filter state.isUnassigned := by
    rw [List.mem_filter, List.mem_range]
    exact ⟨(List.getElem?_eq_some_iff.mp hcandidate).1, hk⟩
  have hperm := List.perm_cons_erase hmem
  rw [(List.nodup_range.filter _).erase_eq_filter, List.filter_filter] at hperm
  have hmoved := hperm.filterMap fun j => state.candidates[j]?.map CandidateColumn.owner
  rw [List.filterMap_cons, hcandidate, Option.map_some] at hmoved
  unfold waiting
  rw [hcandidates, hunassigned]
  simp only [Bool.and_comm] at hmoved ⊢
  apply hmoved

namespace Placement

variable {model : Model F} {indices : List ℕ} {placement result committed : Placement F}
  {k row : ℕ} {tolerance : F} {context : Context F} {queues later : SingletonQueues}

/-! ### Rows and variables -/

/-- Every given structural variable waits, or holds a row, or is singular, and slacks hold no rows
but their own. -/
structure Distributed (model : Model F) (indices : List ℕ) (placement : Placement F) :
    Prop where
  placed : placement.Placed model indices
  structurals :
    (placement.elimination.waiting
      ++ (placement.filledPositions.filter (fun v => model.nrRows < v)
        ++ placement.singular)).Perm
      (indices.filter fun v => model.nrRows < v)
  slacks : ∀ v ∈ indices, v ≤ model.nrRows → placement.positions[v]? = some (some v)
  own : ∀ i v : ℕ, placement.filledPositions[i]? = some v → v ≤ model.nrRows → v = i
  given : ∀ v, some v ∈ placement.positions → v = 0 ∨ v ∈ indices

omit [Scalar F] in
theorem getElem?_filledPositions (placement : Placement F) (i : ℕ) :
  placement.filledPositions[i]? = placement.positions[i]?.map fun v => v.getD i
  := List.getElem?_mapIdx

/-- A free row is filled with its slack. -/
theorem Placed.getElem?_filledPositions (h : placement.Placed model indices)
    (hrow : placement.elimination.isFree row = true) :
  placement.filledPositions[row]? = some row
  := by
  rw [Placement.getElem?_filledPositions, (h.free row).mp hrow]
  rfl

omit [Scalar F] in
/-- Filling up after a variable has been given a row. -/
theorem filledPositions_set (placement : Placement F) (elimination : Elimination F) (v : ℕ) :
  filledPositions
      { placement with elimination, positions := placement.positions.set row (some v) }
    = placement.filledPositions.set row v
  := List.mapIdx_set

/-- The variable of an unassigned candidate is a given structural one. -/
theorem Distributed.mem_of_isUnassigned (h : placement.Distributed model indices)
    {candidate : CandidateColumn F} (hk : placement.elimination.isUnassigned k = true)
    (hcandidate : placement.elimination.candidates[k]? = some candidate) :
  candidate.owner ∈ indices ∧ model.nrRows < candidate.owner
  := by
  let result : Elimination F :=
    { placement.elimination with assigned := placement.elimination.assigned.set k true }
  have hwaiting : placement.elimination.waiting.Perm (candidate.owner :: result.waiting) :=
    Elimination.perm_waiting hk hcandidate rfl rfl
  have hmem := h.structurals.mem_iff.mp
    (List.mem_append_left _ (hwaiting.mem_iff.mpr List.mem_cons_self))
  rw [List.mem_filter, decide_eq_true_eq] at hmem
  apply hmem

/-- A candidate that is given a row holds it from then on. -/
theorem Distributed.place? (h : placement.Distributed model indices) {rows columns : List ℕ}
    (hplace : placement.place? k row = some (result, rows, columns)) :
  result.Distributed model indices ∧ ∃ candidate,
    placement.elimination.candidates[k]? = some candidate
      ∧ result.elimination.candidates = placement.elimination.candidates
      ∧ result.file = placement.file ∧ result.deferred = placement.deferred
      ∧ (structuralRows model.nrRows result.filledPositions).Perm
        ((row, candidate.owner) :: structuralRows model.nrRows placement.filledPositions)
  := by
  obtain ⟨candidate, elimination, hcandidate, hk, hrow, hcandidates, -, hassigned, rfl⟩ :=
    place?_spec hplace
  obtain ⟨howner, hstructural⟩ := h.mem_of_isUnassigned hk hcandidate
  have hslack := h.placed.getElem?_filledPositions hrow
  have hrowLe := Nat.lt_succ_iff.mp (h.placed.row_lt hrow)
  have hrows := structuralRows_set hslack hrowLe hstructural
  rw [← filledPositions_set placement elimination] at hrows
  refine ⟨?_, candidate, hcandidate, hcandidates, rfl, rfl, hrows⟩
  constructor
  case placed =>
    obtain ⟨column, other, _, _, -, hother, hplaced, -⟩ := h.placed.place?_eq hk hrow
    rw [hplace, Option.some_inj, Prod.mk_inj] at hother
    rw [hother.1]
    apply hplaced
  case structurals =>
    apply List.Perm.trans _ h.structurals
    have hfilled := perm_filter_set (p := fun v => decide (model.nrRows < v)) hslack
      (decide_eq_false (not_lt.mpr hrowLe)) (decide_eq_true hstructural)
    have hwaiting := Elimination.perm_waiting hk hcandidate hcandidates hassigned
    rw [filledPositions_set]
    apply ((hfilled.append_right placement.singular).append_left elimination.waiting).trans
    apply List.perm_middle.trans
    apply (hwaiting.append_right _).symm
  case slacks =>
    intro v hv hle
    have hslack := h.slacks v hv hle
    rw [List.getElem?_set_ne (h.placed.ne_of_isFree hrow hslack), hslack]
  case own =>
    intro i v hv hle
    rw [filledPositions_set] at hv
    by_cases hi : row = i
    · subst hi
      rw [List.getElem?_set_self (List.getElem?_eq_some_iff.mp hslack).1, Option.some_inj] at hv
      omega
    · rw [List.getElem?_set_ne hi] at hv
      apply h.own i v hv hle
  case given =>
    intro v hv
    rcases List.mem_or_eq_of_mem_set hv with hold | hnew
    · apply h.given v hold
    · rw [Option.some_inj] at hnew
      rw [hnew]
      apply Or.inr howner

theorem Placed.commit? (h : placement.Placed model indices) {column : EtaColumn F}
    (hcommit : placement.commit? column = some committed) :
  committed.Placed model indices
  := by
  obtain ⟨inverse, -, rfl⟩ := commit?_spec hcommit
  exact { h with }

/-- Committing a column moves no variable. -/
theorem Distributed.commit? (h : placement.Distributed model indices) {column : EtaColumn F}
    (hcommit : placement.commit? column = some committed) :
  committed.Distributed model indices
  := by
  have hplaced := h.placed.commit? hcommit
  obtain ⟨inverse, -, rfl⟩ := commit?_spec hcommit
  exact { h with placed := hplaced }

/-- A candidate that is dropped is singular from then on. -/
theorem Distributed.reject (h : placement.Distributed model indices)
    {candidate : CandidateColumn F} {elimination : Elimination F}
    (hk : placement.elimination.isUnassigned k = true)
    (hcandidate : placement.elimination.candidates[k]? = some candidate)
    (hdrop : placement.elimination.drop? k = some elimination) :
  Distributed model indices
    { placement with elimination, singular := placement.singular ++ [candidate.owner] }
  := by
  obtain ⟨hcandidates, hfree, hassigned⟩ := Elimination.drop?_spec hdrop
  constructor
  case placed =>
    obtain ⟨other, hother, hcounted, -⟩ := h.placed.counted.drop?_eq hk
    rw [hdrop, Option.some_inj] at hother
    subst hother
    apply h.placed.reject hcandidate hcounted hcandidates
    · intro i
      unfold Elimination.isFree
      rw [hfree]
    · apply Elimination.isUnassigned_of_set _ hassigned
  case structurals =>
    apply List.Perm.trans _ h.structurals
    have hwaiting := Elimination.perm_waiting hk hcandidate hcandidates hassigned
    apply List.Perm.trans _ (hwaiting.append_right _).symm
    change (elimination.waiting ++ (_ ++ (placement.singular ++ [candidate.owner]))).Perm _
    rw [← List.append_assoc, ← List.append_assoc]
    apply (List.perm_append_singleton _ _).trans
    rw [List.append_assoc]
    apply List.Perm.refl
  case slacks => apply h.slacks
  case own => apply h.own
  case given => apply h.given

/-! ### Pivots -/

/-- The rows of the columns that wait for their commit, with their variables. -/
def deferredPivots (placement : Placement F) : List (ℕ × ℕ) :=
  placement.deferred.filterMap fun pair =>
    placement.elimination.candidates[pair.1]?.map fun candidate => (pair.2, candidate.owner)

/-- The accounts of variables and of pivots. -/
structure Accounted (model : Model F) (indices : List ℕ) (placement : Placement F) : Prop
    extends placement.Distributed model indices where
  pivots : (placement.file.pivots ++ placement.deferredPivots).Perm
    (structuralRows model.nrRows placement.filledPositions)

/-- A commit adds the pivot of its column. -/
theorem pivots_of_commit? {column : EtaColumn F}
    (h : placement.commit? column = some committed) :
  committed.file.pivots = placement.file.pivots ++ [(column.pivotRow, column.owner)]
  := by
  obtain ⟨inverse, hinverse, rfl⟩ := commit?_spec h
  obtain ⟨hrow, howner, -⟩ := EtaColumn.invert?_spec hinverse
  unfold EtaFile.pivots
  rw [EtaFile.columns_append, List.map_append, List.map_singleton, hrow, howner]

/-- The pivot of a candidate that is committed as it stands. -/
theorem pivots_of_commitRaw? (h : placement.commitRaw? k row = some committed) :
  ∃ candidate, placement.elimination.candidates[k]? = some candidate
    ∧ committed.file.pivots = placement.file.pivots ++ [(row, candidate.owner)]
  := by
  obtain ⟨candidate, column, hcandidate, hcolumn, hcommit⟩ := commitRaw?_spec h
  obtain ⟨hrow, howner, -⟩ := EtaColumn.ofSparse?_spec hcolumn
  have hpivots := pivots_of_commit? hcommit
  rw [hrow, howner] at hpivots
  exact ⟨candidate, hcandidate, hpivots⟩

omit [Scalar F] in
theorem deferredPivots_congr (hdeferred : result.deferred = placement.deferred)
    (hcandidates : result.elimination.candidates = placement.elimination.candidates) :
  result.deferredPivots = placement.deferredPivots
  := by
  unfold deferredPivots
  rw [hdeferred, hcandidates]

/-- Committing the column of a candidate and giving it the pivot row. -/
theorem Accounted.pivot (h : placement.Accounted model indices) {column : EtaColumn F}
    {candidate : CandidateColumn F}
    (hcandidate : placement.elimination.candidates[k]? = some candidate)
    (hcolumnRow : column.pivotRow = row) (howner : column.owner = candidate.owner)
    (hcommit : placement.commit? column = some committed) {rows columns : List ℕ}
    (hplace : committed.place? k row = some (result, rows, columns)) :
  result.Accounted model indices
  := by
  have hpivots := pivots_of_commit? hcommit
  obtain ⟨hdistributed, other, hother, hcandidates, hfile, hdeferred, hrows⟩ :=
    (h.toDistributed.commit? hcommit).place? hplace
  obtain ⟨inverse, -, rfl⟩ := commit?_spec hcommit
  dsimp only at hother hcandidates hdeferred
  rw [hcandidate, Option.some_inj] at hother
  subst hother
  refine ⟨hdistributed, ?_⟩
  rw [hfile, hpivots, hcolumnRow, howner, deferredPivots_congr hdeferred hcandidates]
  apply List.Perm.trans _ hrows.symm
  apply List.Perm.trans _ (h.pivots.cons _)
  rw [List.append_assoc]
  apply List.perm_middle

/-- Giving a candidate a row, its commit put off. -/
theorem Accounted.defer (h : placement.Accounted model indices) {rows columns : List ℕ}
    (hplace : placement.place? k row = some (result, rows, columns)) :
  Accounted model indices { result with deferred := (k, row) :: result.deferred }
  := by
  obtain ⟨hdistributed, candidate, hcandidate, hcandidates, hfile, hdeferred, hrows⟩ :=
    h.toDistributed.place? hplace
  refine ⟨{ hdistributed with placed := { hdistributed.placed with } }, ?_⟩
  have hwaiting : deferredPivots { result with deferred := (k, row) :: result.deferred }
      = (row, candidate.owner) :: placement.deferredPivots := by
    rw [← deferredPivots_congr hdeferred hcandidates]
    unfold deferredPivots
    rw [List.filterMap_cons, hcandidates, hcandidate]
    rfl
  rw [hwaiting]
  apply List.Perm.trans _ hrows.symm
  apply List.Perm.trans _ (h.pivots.cons _)
  change (result.file.pivots ++ _).Perm _
  rw [hfile]
  apply List.perm_middle

theorem Accounted.takeRow? (h : placement.Accounted model indices)
    (htake : takeRow? tolerance row placement queues = some (result, later)) :
  result.Accounted model indices
  := by
  rcases takeRow?_spec htake with ⟨rfl, -⟩
    | ⟨k, committed, rows, columns, -, -, hcommit, hplace, -⟩
  · apply h
  · obtain ⟨candidate, column, hcandidate, hcolumn, hcommit⟩ := commitRaw?_spec hcommit
    obtain ⟨hrow, howner, -⟩ := EtaColumn.ofSparse?_spec hcolumn
    apply h.pivot hcandidate hrow howner hcommit hplace

theorem Accounted.takeColumn? (h : placement.Accounted model indices)
    (htake : takeColumn? tolerance k placement queues = some (result, later)) :
  result.Accounted model indices
  := by
  rcases takeColumn?_spec htake with ⟨rfl, -⟩ | ⟨row, placed, rows, columns, -, -, hplace, rfl, -⟩
  · apply h
  · apply h.defer hplace

theorem Accounted.placeTransformed? (h : placement.Accounted model indices)
    (hk : placement.elimination.isUnassigned k = true)
    (hplace : placement.placeTransformed? context k = some result) :
  result.Accounted model indices
  := by
  obtain ⟨candidate, raw, solved, hcandidate, -, -, hcases⟩ := placeTransformed?_spec hplace
  rcases hcases with ⟨row, column, committed, rows, columns, -, hcolumn, hcommit, hplaced⟩
    | ⟨-, elimination, hdrop, rfl⟩
  · obtain ⟨-, hrow, howner, -⟩ := EtaColumn.ofDense?_spec hcolumn
    apply h.pivot hcandidate hrow howner hcommit hplaced
  · refine ⟨h.toDistributed.reject hk hcandidate hdrop, ?_⟩
    have hwaiting : deferredPivots { placement with
        elimination, singular := placement.singular ++ [candidate.owner] }
          = placement.deferredPivots :=
      deferredPivots_congr rfl (Elimination.drop?_spec hdrop).1
    rw [hwaiting]
    apply h.pivots

/-- The commits that were put off add the pivots that waited. -/
theorem pivots_of_commitDeferred? (h : placement.commitDeferred? = some committed) :
  committed.file.pivots = placement.file.pivots ++ placement.deferredPivots
    ∧ committed.positions = placement.positions ∧ committed.singular = placement.singular
  := by
  unfold Placement.commitDeferred? at h
  unfold deferredPivots
  generalize placement.deferred = deferred at h ⊢
  induction deferred generalizing placement with
  | nil =>
      cases h
      rw [List.filterMap_nil, List.append_nil]
      exact ⟨rfl, rfl, rfl⟩
  | cons pair deferred ih =>
      rw [List.foldlM_cons] at h
      obtain ⟨next, hnext, h⟩ := Option.bind_eq_some_iff.mp h
      obtain ⟨hpivots, hpositions, hsingular⟩ := ih h
      obtain ⟨candidate, hcandidate, hfirst⟩ := pivots_of_commitRaw? hnext
      obtain ⟨_, _, -, -, hcommit⟩ := commitRaw?_spec hnext
      obtain ⟨inverse, -, rfl⟩ := commit?_spec hcommit
      refine ⟨?_, hpositions, hsingular⟩
      rw [hpivots, hfirst, List.filterMap_cons, hcandidate, List.append_assoc]
      rfl

/-- The accounts hold at the start. -/
theorem exists_start?_accounted (hnodup : (indices.filter fun v => v ≤ model.nrRows).Nodup)
    (hindices : ∀ v ∈ indices, 0 < v ∧ v < model.nrVariables) :
  ∃ placement, start? model indices = some placement ∧ placement.Accounted model indices
    ∧ placement.file = {} ∧ placement.deferred = []
  := by
  obtain ⟨positions, candidates, hstart, hplaced, hslacks, hown, howners⟩ :=
    exists_start? hnodup hindices
  refine ⟨_, hstart, ?_, rfl, rfl⟩
  set placement : Placement F :=
    { elimination := .start (positions.map Option.isNone) candidates, positions } with hplacement
  have hfilled (i v : ℕ) (hv : placement.filledPositions[i]? = some v) : v = i := by
    rw [getElem?_filledPositions] at hv
    obtain ⟨position, hposition, rfl⟩ := Option.map_eq_some_iff.mp hv
    cases position with
    | none => rfl
    | some v => apply (hown i v hposition).1
  have hslack (i v : ℕ) (hv : placement.filledPositions[i]? = some v) : ¬ model.nrRows < v := by
    rw [hfilled i v hv, not_lt]
    have hlt := (List.getElem?_eq_some_iff.mp hv).1
    unfold filledPositions at hlt
    rw [List.length_mapIdx, hplaced.length] at hlt
    apply Nat.lt_succ_iff.mp hlt
  have hnone : structuralRows model.nrRows placement.filledPositions = [] := by
    apply List.eq_nil_iff_forall_not_mem.mpr
    rintro ⟨i, v⟩ hpair
    obtain ⟨hv, hlt⟩ := mem_structuralRows.mp hpair
    apply hslack i v hv hlt
  have hwaiting : placement.elimination.waiting = indices.filter fun v => model.nrRows < v := by
    have hall : (List.range candidates.length).filter placement.elimination.isUnassigned
        = List.range candidates.length := by
      apply List.filter_eq_self.mpr
      intro k hk
      apply Elimination.isUnassigned_start.mpr (List.mem_range.mp hk)
    rw [← howners, ← filterMap_range_getElem?]
    unfold Elimination.waiting
    rw [show placement.elimination.candidates = candidates from rfl, hall]
  constructor
  case toDistributed =>
    constructor
    case placed => apply hplaced
    case structurals =>
      rw [hwaiting, ← map_snd_structuralRows model.nrRows placement.filledPositions, hnone]
      change (_ ++ ([] ++ [])).Perm _
      rw [List.append_nil, List.append_nil]
    case slacks => apply hslacks
    case own =>
      intro i v hv _
      apply hfilled i v hv
    case given =>
      intro v hv
      obtain ⟨i, hi⟩ := List.mem_iff_getElem?.mp hv
      apply (hown i v hi).2
  case pivots =>
    rw [hnone]
    apply List.Perm.nil

end Placement

/-- The accounts hold when all candidates have been through. -/
theorem Placement.accounted_of_phases {context : Context F} {model : Model F} {indices : List ℕ}
    {start singles rest : Placement F}
    (hnodup : (indices.filter fun v => v ≤ model.nrRows).Nodup)
    (hindices : ∀ v ∈ indices, 0 < v ∧ v < model.nrVariables)
    (hstart : start? model indices = some start)
    (hsingles : start.placeSingletons? context.tolerances.factorizationPivot = some singles)
    (hrest : placeRest? context
        ((List.range singles.elimination.candidates.length).filter
          singles.elimination.isUnassigned).length
        ((List.range singles.elimination.candidates.length).filter
          singles.elimination.isUnassigned) singles = some rest) :
  rest.Accounted model indices ∧ rest.elimination.waiting = []
  := by
  obtain ⟨first, hfirst, haccounted, -⟩ := exists_start?_accounted hnodup hindices
  rw [hstart, Option.some_inj] at hfirst
  subst hfirst
  have hsingles := takeSingletons?_induction (fun h => h.takeRow?) (fun h => h.takeColumn?)
    haccounted hsingles
  obtain ⟨hrest, hall⟩ := placeRest?_exhausts (fun h _ hk => h.placeTransformed? hk) rfl
    hsingles.placed.lists (fun _ _ _ => trivial) hsingles hrest
  refine ⟨hrest, ?_⟩
  unfold Elimination.waiting
  rw [List.filter_eq_nil_iff.mpr]
  · rfl
  · intro k _
    rw [hall k]
    apply Bool.false_ne_true

/-- A placed basis has the positions and the pivots of a placement in which nothing waits. -/
theorem PlacedBasis.exists_accounted {context : Context F} {model : Model F} {indices : List ℕ}
    {placed : PlacedBasis F} (hnodup : (indices.filter fun v => v ≤ model.nrRows).Nodup)
    (hindices : ∀ v ∈ indices, 0 < v ∧ v < model.nrVariables)
    (h : PlacedBasis.of? context model indices = some placed) :
  ∃ rest : Placement F, rest.Accounted model indices ∧ rest.elimination.waiting = []
    ∧ placed.positions = rest.filledPositions ∧ placed.singular = rest.singular
    ∧ placed.file.pivots = rest.file.pivots ++ rest.deferredPivots
    ∧ placed.file.factorColumns = placed.file.nrColumns
  := by
  obtain ⟨start, singles, rest, last, file, hstart, hsingles, hrest, hlast, hmark, hfile,
    hpositions, hsingular⟩ := PlacedBasis.of?_spec h
  obtain ⟨haccounted, hwaiting⟩ :=
    Placement.accounted_of_phases hnodup hindices hstart hsingles hrest
  obtain ⟨hpivots, hlastPositions, hlastSingular⟩ := Placement.pivots_of_commitDeferred? hlast
  obtain ⟨-, rfl⟩ := EtaFile.markFactorEnd?_spec hmark
  refine ⟨rest, haccounted, hwaiting, ?_, hsingular.trans hlastSingular, ?_, ?_⟩
  · rw [hpositions]
    unfold Placement.filledPositions
    rw [hlastPositions]
  · rw [hfile]
    apply hpivots
  · rw [hfile]
    rfl

/-- The accounts of a placed basis, for any numbers and any settings. -/
theorem PlacedBasis.accounts_of_of? {context : Context F} {model : Model F} {indices : List ℕ}
    {placed : PlacedBasis F} (hnodup : indices.Nodup)
    (hindices : ∀ v ∈ indices, 0 < v ∧ v < model.nrVariables)
    (h : PlacedBasis.of? context model indices = some placed) :
  Accounts model.nrRows indices placed.positions placed.singular placed.file.pivots
    ∧ (placed.positions.filter (fun v => model.nrRows < v) ++ placed.singular).Perm
      (indices.filter fun v => model.nrRows < v)
    ∧ placed.file.factorColumns = placed.file.nrColumns
  := by
  obtain ⟨rest, haccounted, hwaiting, hpositions, hsingular, hpivots, hfactor⟩ :=
    PlacedBasis.exists_accounted (hnodup.filter _) hindices h
  have hvariables := haccounted.structurals
  rw [hwaiting, List.nil_append, ← hpositions, ← hsingular] at hvariables
  refine ⟨?_, hvariables, hfactor⟩
  apply Accounts.of_perm hnodup
  · rw [hpositions]
    unfold Placement.filledPositions
    rw [List.length_mapIdx, haccounted.placed.length]
  · intro v hv hle
    rw [hpositions, Placement.getElem?_filledPositions, haccounted.slacks v hv hle]
    rfl
  · rw [hpositions]
    apply haccounted.own
  · rw [hpositions, Placement.getElem?_filledPositions, haccounted.placed.dummy]
    rfl
  · apply hvariables
  · rw [hpivots, hpositions]
    apply haccounted.pivots

end Steps

end RevisedSimplex
