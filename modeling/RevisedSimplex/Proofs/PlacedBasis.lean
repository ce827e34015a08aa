import RevisedSimplex.Proofs.PlacementStart
import RevisedSimplex.Proofs.PlacementSteps

/-!
# Placing a basis

`PlacedBasis.of?` never fails for distinct variables, and its file inverts the matrix of the
columns at its positions.  This goes through the phases of a placement: the singletons, the
columns that have to be transformed, and the commits that were put off.  Each phase keeps the
invariant `Sound`.  While singletons are placed, no unassigned candidate has a nonzero in a pivot
row, since a row singleton is the last candidate of its row.
-/

open Matrix

namespace RevisedSimplex

variable {F : Type} [ExactScalar F]

/-- A threshold that leaves no zero among the pivots that are large enough. -/
def RowSelection.Positive : RowSelection F → Prop
  | largestMagnitude => True
  | markowitz threshold => 0 < threshold

namespace Placement

variable {model : Model F} {indices : List ℕ} {placement : Placement F} {k row : ℕ}

/-! ### Singletons -/

/-- The column of a candidate that is zero in all pivot rows, to be committed as it stands. -/
theorem Inverting.ofSparse?_eq (h : placement.Inverting model)
    (hplaced : placement.Placed model indices) {candidate : CandidateColumn F}
    (hk : placement.elimination.candidates[k]? = some candidate) (i : Fin (model.nrRows + 1))
    (hentry : placement.elimination.vector (model.nrRows + 1) k i ≠ 0)
    (hzero : ∀ r ∈ placement.file.pivotRows, placement.elimination.hits k r = false) :
  ∃ column : EtaColumn F,
    EtaColumn.ofSparse? candidate.entries i.val candidate.owner = some column
    ∧ column.Fits (model.nrRows + 1) ∧ column.pivotRow = i.val ∧ column.pivot ≠ 0
    ∧ placement.file.matrix (model.nrRows + 1)
        *ᵥ placement.elimination.vector (model.nrRows + 1) k = column.entries (model.nrRows + 1)
  := by
  obtain ⟨hordered, hbound⟩ := hplaced.column_ordered hk
  have hvector : placement.elimination.vector (model.nrRows + 1) k
      = SparseVector.entries (model.nrRows + 1) candidate.entries := by
    unfold Elimination.vector
    rw [hk]
    rfl
  obtain ⟨column, hcolumn, hfits, hrow, -, hpivot, hentries⟩ :=
    EtaColumn.ofSparse?_eq hordered hbound i candidate.owner
  refine ⟨column, hcolumn, hfits, hrow, ?_, ?_⟩
  · rw [hpivot, ← hvector]
    apply hentry
  · rw [hentries, ← hvector]
    apply h.fits.matrix_mulVec_of_zero
    intro r hr
    by_contra hne
    have hhits := (Elimination.hits_iff hplaced.counted.ordered k r).mpr hne
    rw [hzero r.val hr] at hhits
    cases hhits

omit [ExactScalar F] in
theorem commitRaw?_of_ofSparse? [Scalar F] {placement : Placement F}
    {candidate : CandidateColumn F} {column : EtaColumn F}
    (hk : placement.elimination.candidates[k]? = some candidate)
    (hcolumn : EtaColumn.ofSparse? candidate.entries row candidate.owner = some column) :
  placement.commitRaw? k row = placement.commit? column
  := by
  unfold commitRaw?
  rw [hk, Option.bind_eq_bind, Option.bind_some, hcolumn]
  rfl

/-- Taking a row from the queue. -/
theorem Sound.takeRow?_eq (h : placement.Sound model indices) (huntouched : placement.Untouched)
    (tolerance : F) (row : ℕ) (queues : SingletonQueues) :
  ∃ (result : Placement F) (later : SingletonQueues),
    takeRow? tolerance row placement queues = some (result, later)
      ∧ result.Sound model indices ∧ result.Untouched
  := by
  unfold takeRow?
  cases hfilter : (placement.elimination.columnFor? row).filter fun k =>
      placement.elimination.isAcceptable tolerance k row with
  | none => exact ⟨placement, queues, rfl, h, huntouched⟩
  | some k =>
      obtain ⟨hcolumnFor, -⟩ := Option.filter_eq_some_iff.mp hfilter
      obtain ⟨hfree, hk, hhits, honly⟩ := h.placed.counted.columnFor?_spec hcolumnFor
      have hrow := h.placed.row_lt hfree
      obtain ⟨candidate, hcandidate⟩ := h.placed.exists_candidate hk
      have hentry := (Elimination.hits_iff h.placed.counted.ordered k ⟨row, hrow⟩).mp hhits
      obtain ⟨column, hsparse, hfits, rfl, hpivot, hcolumn⟩ :=
        h.inverting.ofSparse?_eq h.placed hcandidate ⟨row, hrow⟩ hentry (huntouched k hk)
      have hraw := commitRaw?_of_ofSparse? hcandidate hsparse
      obtain ⟨committed, result, rows, columns, hcommit, hplace, hresult, hinverting, hcandidates,
        hpivotRows, hunassigned⟩ := h.inverting.pivot h.placed hk hfree hfits hpivot hcolumn
      refine ⟨result, queues.add rows columns, ?_, ⟨hresult, hinverting⟩, ?_⟩
      · simp only [hraw, hcommit, hplace, Option.bind_eq_bind, Option.bind_some]
      · intro j hj i hi
        rw [hunassigned, Bool.and_eq_true] at hj
        rw [hpivotRows, List.mem_append, List.mem_singleton] at hi
        rw [hits_congr hcandidates]
        rcases hi with hi | rfl
        · apply huntouched j hj.1 i hi
        · rw [Bool.eq_false_iff]
          intro hhits
          rw [honly j hj.1 hhits] at hj
          simp at hj

/-- Taking a candidate from the queue. -/
theorem Sound.takeColumn?_eq (h : placement.Sound model indices) (huntouched : placement.Untouched)
    (tolerance : F) (k : ℕ) (queues : SingletonQueues) :
  ∃ (result : Placement F) (later : SingletonQueues),
    takeColumn? tolerance k placement queues = some (result, later)
      ∧ result.Sound model indices ∧ result.Untouched
  := by
  unfold takeColumn?
  cases hfilter : (placement.elimination.rowFor? k).filter fun row =>
      placement.elimination.isAcceptable tolerance k row with
  | none => exact ⟨placement, queues, rfl, h, huntouched⟩
  | some row =>
      obtain ⟨hrowFor, -⟩ := Option.filter_eq_some_iff.mp hfilter
      obtain ⟨hk, hfree, hhits, honly⟩ := h.placed.counted.rowFor?_spec hrowFor
      obtain ⟨result, rows, columns, hplace, hresult, hinverting, hcandidates, hfile,
        hunassigned⟩ := h.inverting.defer h.placed hk hfree hhits honly (huntouched k hk)
      refine ⟨_, queues.add rows columns, ?_, ⟨hresult, hinverting⟩, ?_⟩
      · simp only [hplace, Option.bind_eq_bind, Option.bind_some]
      · intro j hj i hi
        have hi : i ∈ placement.file.pivotRows := by
          rw [← hfile]
          apply hi
        change result.elimination.hits j i = false
        rw [hits_congr hcandidates]
        rw [show result.elimination.isUnassigned j = _ from hunassigned j, Bool.and_eq_true] at hj
        apply huntouched j hj.1 i hi

/-- Taking rows and candidates from the queues. -/
theorem Sound.takeSingletons?_eq (h : placement.Sound model indices)
    (huntouched : placement.Untouched) (tolerance : F) (fuel : ℕ) (queues : SingletonQueues) :
  ∃ result, takeSingletons? tolerance fuel placement queues = some result
    ∧ result.Sound model indices ∧ result.Untouched
  := by
  apply exists_takeSingletons? (motive := fun p => p.Sound model indices ∧ p.Untouched)
  · intro _ row queues h
    apply h.1.takeRow?_eq h.2 tolerance row queues
  · intro _ k queues h
    apply h.1.takeColumn?_eq h.2 tolerance k queues
  · exact ⟨h, huntouched⟩

/-! ### The other columns -/

/-- The chosen pivot row is free, and its entry is not zero. -/
theorem pivotRow?_spec {context : Context F} (hpivot : 0 < context.tolerances.factorizationPivot)
    (hselection : context.rowSelection.Positive) {state : Elimination F} {column : DenseVector F}
    (h : pivotRow? context state column = some row) :
  state.isFree row = true ∧ ∃ value, column[row]? = some value ∧ value ≠ 0
  := by
  obtain ⟨hfree, value, best, hvalue, hbest, hadmits, -⟩ := admits_of_pivotRow? h
  have hbest : 0 < best := lt_of_lt_of_le hpivot (not_lt.mp hbest)
  refine ⟨hfree, value, hvalue, ?_⟩
  apply abs_pos.mp
  rw [← ExactScalar.magnitude_eq_abs]
  cases hrule : context.rowSelection with
  | largestMagnitude =>
      rw [hrule] at hadmits
      rw [hadmits]
      apply hbest
  | markowitz threshold =>
      rw [hrule] at hselection hadmits
      apply lt_of_lt_of_le (mul_pos hselection hbest) hadmits

omit [ExactScalar F] in
/-- A rejected candidate is accounted for as singular. -/
theorem Placed.reject [Scalar F] {model : Model F} {placement : Placement F}
    (h : placement.Placed model indices) {candidate : CandidateColumn F}
    (hcandidate : placement.elimination.candidates[k]? = some candidate)
    {elimination : Elimination F} (hcounted : elimination.Counted)
    (hcandidates : elimination.candidates = placement.elimination.candidates)
    (hfree : ∀ i, elimination.isFree i = placement.elimination.isFree i)
    (hunassigned : ∀ j,
      elimination.isUnassigned j = (placement.elimination.isUnassigned j && j != k)) :
  Placed model indices
    { placement with elimination, singular := placement.singular ++ [candidate.owner] }
  := by
  constructor
  case counted => apply hcounted
  case candidate =>
    intro j other hother
    rw [hcandidates] at hother
    apply h.candidate j other hother
  case length => apply h.length
  case free =>
    intro i
    change elimination.isFree i = true ↔ _
    rw [hfree]
    apply h.free
  case lt => apply h.lt
  case dummy => apply h.dummy
  case kept =>
    intro v hv
    rcases h.kept v hv with hin | hsingular | ⟨j, other, hj, hother, howner⟩
    · apply Or.inl hin
    · apply Or.inr (Or.inl (List.mem_append_left _ hsingular))
    · by_cases hjk : j = k
      · subst hjk
        rw [hcandidate] at hother
        cases hother
        apply Or.inr (Or.inl _)
        rw [← howner]
        apply List.mem_append_right _ (List.mem_singleton_self _)
      · refine Or.inr (Or.inr ⟨j, other, ?_, ?_, howner⟩)
        · rw [show elimination.isUnassigned j = _ from hunassigned j, hj]
          simpa using hjk
        · rw [hcandidates, hother]

/-- Rejecting a candidate. -/
theorem Sound.reject (h : placement.Sound model indices) {candidate : CandidateColumn F}
    (hk : placement.elimination.isUnassigned k = true)
    (hcandidate : placement.elimination.candidates[k]? = some candidate) :
  ∃ elimination : Elimination F, placement.elimination.drop? k = some elimination
    ∧ Sound model indices
      { placement with elimination, singular := placement.singular ++ [candidate.owner] }
  := by
  obtain ⟨elimination, hdrop, hcounted, hcandidates, hfree, hassigned⟩ :=
    h.placed.counted.drop?_eq hk
  have hunassigned := Elimination.isUnassigned_of_set elimination.assigned hassigned
  have hisFree (i : ℕ) : elimination.isFree i = placement.elimination.isFree i := by
    unfold Elimination.isFree
    rw [hfree]
  refine ⟨elimination, hdrop, ?_, ?_⟩
  · apply h.placed.reject hcandidate hcounted hcandidates hisFree hunassigned
  · constructor
    case fits => apply h.inverting.fits
    case staged => apply h.inverting.staged
    case pivoted => apply h.inverting.pivoted
    case own => apply h.inverting.own
    case deferred =>
      intro j i hji
      refine (h.inverting.deferred j i hji).mono hcandidates rfl (fun r hr => Or.inl hr) ?_
      intro r hr
      rw [← hisFree]
      apply hr
    case order =>
      apply h.inverting.order.imp
      intro later earlier hpair
      change elimination.hits _ _ = false ∧ _
      rw [hits_congr hcandidates]
      apply hpair

/-- The transformed column of a candidate. -/
theorem Sound.exists_solved (h : placement.Sound model indices) {candidate : CandidateColumn F}
    (hcandidate : placement.elimination.candidates[k]? = some candidate) :
  ∃ raw solved, candidate.entries.toDense? placement.positions.length = some raw
    ∧ placement.file.applyRight? raw = some solved ∧ solved.length = model.nrRows + 1
    ∧ solved.entries (model.nrRows + 1) = placement.file.matrix (model.nrRows + 1)
      *ᵥ placement.elimination.vector (model.nrRows + 1) k
  := by
  obtain ⟨hordered, hbound⟩ := h.placed.column_ordered hcandidate
  obtain ⟨raw, hraw, hrawLength, hrawEntries⟩ := SparseVector.toDense?_eq hordered hbound
  obtain ⟨solved, hsolved, hsolvedLength, hsolvedEntries⟩ :=
    h.inverting.fits.applyRight?_eq hrawLength
  refine ⟨raw, solved, ?_, hsolved, hsolvedLength, ?_⟩
  · rw [h.placed.length, hraw]
  · rw [hsolvedEntries, hrawEntries]
    unfold Elimination.vector
    rw [hcandidate]
    rfl

/-- Transforming and placing a candidate, or rejecting it. -/
theorem Sound.placeTransformed?_eq (h : placement.Sound model indices) {context : Context F}
    (hdrop : context.tolerances.drop = 0)
    (hpivot : 0 < context.tolerances.factorizationPivot)
    (hselection : context.rowSelection.Positive)
    (hk : placement.elimination.isUnassigned k = true) :
  ∃ result, placement.placeTransformed? context k = some result ∧ result.Sound model indices
  := by
  obtain ⟨candidate, hcandidate⟩ := h.placed.exists_candidate hk
  obtain ⟨raw, solved, hraw, hsolved, hsolvedLength, hsolvedEntries⟩ := h.exists_solved hcandidate
  unfold placeTransformed?
  rw [hcandidate, Option.bind_eq_bind, Option.bind_some, hraw, Option.bind_eq_bind,
    Option.bind_some, hsolved, Option.bind_eq_bind, Option.bind_some, hdrop,
    DenseVector.roundRelative_zero]
  dsimp only
  cases hchoice : pivotRow? context placement.elimination solved with
  | some row =>
      obtain ⟨hfree, value, hvalue, hne⟩ := pivotRow?_spec hpivot hselection hchoice
      have hrow := h.placed.row_lt hfree
      obtain ⟨column, hcolumn, hfits, hpivotRow, -, hcolumnPivot, hentries⟩ :=
        EtaColumn.ofDense?_eq hsolvedLength ⟨row, hrow⟩ candidate.owner
      have hnonzero : column.pivot ≠ 0 := by
        rw [hcolumnPivot]
        have hget := DenseVector.getElem?_eq_entries hsolvedLength ⟨row, hrow⟩
        rw [show solved[row]? = _ from hget, Option.some_inj] at hvalue
        rw [hvalue]
        apply hne
      have hpivotRow : column.pivotRow = row := hpivotRow
      subst hpivotRow
      obtain ⟨committed, result, rows, columns, hcommit, hplace, hresult, hinverting, -⟩ :=
        h.inverting.pivot h.placed hk hfree hfits hnonzero
          (by rw [hentries, hsolvedEntries])
      refine ⟨result, ?_, hresult, hinverting⟩
      simp only [hcolumn, hcommit, hplace, Option.bind_eq_bind, Option.bind_some]
  | none =>
      obtain ⟨elimination, hdropped, hsound⟩ := h.reject hk hcandidate
      refine ⟨_, ?_, hsound⟩
      simp only [hdropped, Option.bind_eq_bind, Option.bind_some]

omit [ExactScalar F] in
/-- The candidates that the singleton phase leaves are listed. -/
theorem Placed.lists [Scalar F] {model : Model F} {placement : Placement F}
    (h : placement.Placed model indices) :
  placement.Lists ((List.range placement.elimination.candidates.length).filter
    placement.elimination.isUnassigned)
  := by
  constructor
  · apply List.nodup_range.filter
  · intro k
    rw [List.mem_filter, List.mem_range]
    constructor
    · intro hk
      apply hk.2
    · intro hk
      obtain ⟨column, hcolumn⟩ := h.exists_candidate hk
      use (List.getElem?_eq_some_iff.mp hcolumn).1

/-- Placing or rejecting all remaining candidates. -/
theorem Sound.placeRest?_eq (h : placement.Sound model indices) {context : Context F}
    (hdrop : context.tolerances.drop = 0) (hpivot : 0 < context.tolerances.factorizationPivot)
    (hselection : context.rowSelection.Positive) {remaining : List ℕ}
    (hlists : placement.Lists remaining) :
  ∃ result, placeRest? context remaining.length remaining placement = some result
    ∧ result.Sound model indices ∧ ∀ k, result.elimination.isUnassigned k = false
  := by
  obtain ⟨result, hresult, hsound⟩ := exists_placeRest? (motive := Sound model indices)
    (fun h hk => h.placeTransformed?_eq hdrop hpivot hselection hk) remaining.length hlists h
  have hexhausted := placeRest?_exhausts (motive := fun _ => True)
    (fun _ _ _ _ => trivial) rfl hlists (fun _ _ _ => trivial) trivial hresult
  exact ⟨result, hresult, hsound, hexhausted.2⟩

/-! ### The end -/

/-- Committing the column that was put off last. -/
theorem Inverting.commitRaw?_eq (hplaced : placement.Placed model indices)
    {rest : List (ℕ × ℕ)}
    (h : Inverting model { placement with deferred := (k, row) :: rest }) :
  ∃ file : EtaFile F, placement.commitRaw? k row = some { placement with file }
    ∧ Inverting model { placement with file, deferred := rest }
  := by
  have hdeferred := h.deferred k row List.mem_cons_self
  obtain ⟨candidate, hcandidate, hposition⟩ := hdeferred.placed
  have hrow : row < model.nrRows + 1 := by
    obtain ⟨hlt, -⟩ := List.getElem?_eq_some_iff.mp hposition
    rw [← hplaced.length]
    apply hlt
  have hentry : placement.elimination.vector (model.nrRows + 1) k ⟨row, hrow⟩ ≠ 0 :=
    (Elimination.hits_iff hplaced.counted.ordered k ⟨row, hrow⟩).mp hdeferred.hits
  obtain ⟨column, hsparse, hfits, hpivotRow, hpivot, hcolumn⟩ :=
    h.ofSparse?_eq (show Placed model indices _ from { hplaced with }) hcandidate ⟨row, hrow⟩
      hentry hdeferred.pivoted
  have hpivotRow : column.pivotRow = row := hpivotRow
  subst hpivotRow
  have hvector := hplaced.vector_eq hcandidate
  obtain ⟨file, hcommit, hstaged, hfile, hpivotRows, hpivoted⟩ :=
    h.pivoted.commit placement.positions h.fits hfits hpivot hdeferred.unpivoted
      (fun i _ => rfl) hposition (by rw [← hvector]; apply hcolumn)
  obtain ⟨hlater, horder⟩ := List.pairwise_cons.mp h.order
  use file
  constructor
  · have hcandidate : placement.elimination.candidates[k]? = some candidate := hcandidate
    change (placement.file.stage column).commit? false = some (true, file) at hcommit
    rw [commitRaw?_of_ofSparse? hcandidate hsparse]
    unfold commit?
    rw [hcommit]
    rfl
  · constructor
    case fits => apply hfile
    case staged => apply hstaged
    case pivoted => apply hpivoted
    case own =>
      intro i v hv hi
      rw [hpivotRows, List.mem_append, List.mem_singleton, not_or] at hi
      rcases h.own i v hv hi.1 with hown | ⟨j, hj⟩
      · apply Or.inl hown
      · rcases List.mem_cons.mp hj with hhead | htail
        · cases hhead
          cases hi.2 rfl
        · apply Or.inr ⟨j, htail⟩
    case deferred =>
      intro j i hji
      have hwaiting := h.deferred j i (List.mem_cons_of_mem _ hji)
      obtain ⟨hzero, hne⟩ := hlater (j, i) hji
      constructor
      case hits => apply hwaiting.hits
      case placed => apply hwaiting.placed
      case unpivoted =>
        rw [hpivotRows, List.mem_append, List.mem_singleton, not_or]
        use hwaiting.unpivoted
        apply hne.symm
      case pivoted =>
        intro r hr
        rw [hpivotRows, List.mem_append, List.mem_singleton] at hr
        rcases hr with hr | rfl
        · apply hwaiting.pivoted r hr
        · apply hzero
      case free => apply hwaiting.free
    case order => apply horder

/-- Committing the columns that were put off, by induction on their list. -/
theorem Placed.foldlM_commitRaw?_eq :
    ∀ (rest : List (ℕ × ℕ)) (placement : Placement F), placement.Placed model indices →
      Inverting model { placement with deferred := rest } →
      ∃ file : EtaFile F,
        rest.foldlM (fun placement pair => placement.commitRaw? pair.1 pair.2) placement
            = some { placement with file }
          ∧ Inverting model { placement with file, deferred := [] }
  | [], placement, _, h => ⟨placement.file, rfl, h⟩
  | (k, row) :: rest, placement, hplaced, h => by
      obtain ⟨file, hfirst, hnext⟩ := h.commitRaw?_eq hplaced
      obtain ⟨last, hlast, hinverting⟩ :=
        foldlM_commitRaw?_eq rest { placement with file } { hplaced with } hnext
      use last
      constructor
      · rw [List.foldlM_cons, hfirst]
        apply hlast
      · apply hinverting

/-- When no candidate is left, the file inverts the columns of the filled positions. -/
theorem Sound.matrix_mulVec_filled (h : placement.Sound model indices)
    (hdeferred : placement.deferred = []) {i : Fin (model.nrRows + 1)} {v : ℕ}
    (hv : placement.filledPositions[i.val]? = some v) :
  v < model.nrVariables
    ∧ placement.file.matrix (model.nrRows + 1) *ᵥ model.vector v = Pi.single i 1
  := by
  unfold filledPositions at hv
  rw [List.getElem?_mapIdx] at hv
  obtain ⟨position, hposition, rfl⟩ := Option.map_eq_some_iff.mp hv
  have hpivoted (hi : i.val ∈ placement.file.pivotRows) :
      ∃ v, position = some v
        ∧ placement.file.matrix (model.nrRows + 1) *ᵥ model.vector v = Pi.single i 1 := by
    obtain ⟨v, hv, hinvert⟩ := h.inverting.pivoted i hi
    rw [hposition, Option.some_inj] at hv
    use v
  constructor
  · cases position with
    | none =>
        rw [Option.getD_none]
        have hi := i.isLt
        unfold Model.nrVariables
        omega
    | some v => apply h.placed.lt i.val v hposition
  · by_cases hi : i.val ∈ placement.file.pivotRows
    · obtain ⟨v, rfl, hinvert⟩ := hpivoted hi
      apply hinvert
    · have hown : position.getD i.val = i.val := by
        cases position with
        | none => rfl
        | some v =>
            rcases h.inverting.own i.val v hposition hi with hown | ⟨k, hk⟩
            · apply hown
            · rw [hdeferred] at hk
              cases hk
      rw [hown, model.vector_of_le]
      apply h.inverting.fits.matrix_mulVec_single hi

end Placement

/-- Distinct variables can be placed.  The file takes the column at each position to the unit
vector of the position, and every variable has a position or is singular. -/
theorem PlacedBasis.of?_eq {context : Context F} {model : Model F} {indices : List ℕ}
    (hdrop : context.tolerances.drop = 0)
    (hpivot : 0 < context.tolerances.factorizationPivot)
    (hselection : context.rowSelection.Positive) (hnodup : indices.Nodup)
    (hindices : ∀ v ∈ indices, 0 < v ∧ v < model.nrVariables) :
  ∃ placed, PlacedBasis.of? context model indices = some placed
    ∧ placed.positions.length = model.nrRows + 1 ∧ placed.positions[0]? = some 0
    ∧ placed.file.Fits (model.nrRows + 1) ∧ placed.file.staged = none
    ∧ (∀ (i : Fin (model.nrRows + 1)) (v : ℕ), placed.positions[i.val]? = some v →
      v < model.nrVariables
        ∧ placed.file.matrix (model.nrRows + 1) *ᵥ model.vector v = Pi.single i 1)
    ∧ ∀ v ∈ indices, v ∈ placed.positions ∨ v ∈ placed.singular
  := by
  obtain ⟨start, hstart, hsound, huntouched⟩ := Placement.start?_eq hnodup hindices
  have hphase : ∃ singles,
      start.placeSingletons? context.tolerances.factorizationPivot = some singles
        ∧ singles.Sound model indices ∧ singles.Untouched :=
    hsound.takeSingletons?_eq huntouched _ _ _
  obtain ⟨singles, hsingles, hsound, -⟩ := hphase
  have hlists := hsound.placed.lists
  obtain ⟨rest, hrest, hsound, hall⟩ := hsound.placeRest?_eq hdrop hpivot hselection hlists
  obtain ⟨file, hcommitted, hinverting⟩ := hsound.placed.foldlM_commitRaw?_eq rest.deferred rest
    { hsound.inverting with }
  have hlast : Placement.Sound model indices { rest with file, deferred := [] } :=
    ⟨{ hsound.placed with }, hinverting⟩
  have hzero : 0 ∉ indices := fun h => lt_irrefl 0 (hindices 0 h).1
  refine ⟨_, PlacedBasis.of?_of_phases hzero hstart hsingles hrest hcommitted hinverting.staged,
    ?_, ?_, ?_, ?_, ?_, ?_⟩
  · change rest.filledPositions.length = _
    unfold Placement.filledPositions
    rw [List.length_mapIdx, hsound.placed.length]
  · change rest.filledPositions[0]? = _
    unfold Placement.filledPositions
    rw [List.getElem?_mapIdx, hsound.placed.dummy]
    rfl
  · apply hinverting.fits
  · apply hinverting.staged
  · intro i v hv
    apply hlast.matrix_mulVec_filled rfl hv
  · intro v hv
    rcases hsound.placed.kept v hv with hin | hsingular | ⟨k, column, hk, -, -⟩
    · apply Or.inl
      obtain ⟨i, hi⟩ := List.mem_iff_getElem?.mp hin
      apply List.mem_of_getElem?
      change rest.filledPositions[i]? = some v
      unfold Placement.filledPositions
      rw [List.getElem?_mapIdx, hi]
      rfl
    · apply Or.inr hsingular
    · rw [hall k] at hk
      cases hk

end RevisedSimplex
