import RevisedSimplex.Proofs.InverseForm
import RevisedSimplex.Proofs.LawfulScalar
import RevisedSimplex.Proofs.PlacementAccounts

/-!
# The accounts of a factorization

When no zero passes as a pivot, factorizing always has a result, however many variables there are,
and whether their columns are dependent or not: what a placement has to do while it is `Ready` never
fails.  A column that is committed as it stands is not zero in its row, since its
candidate was counted there.  A transformed column is not zero in its pivot row, since the entry
there has been compared with the tolerance.

With the accounts of the placed basis, this says where a factorization leaves each given variable,
what holds each row, and which pivots the new file has.
-/

namespace RevisedSimplex

variable {F : Type} [Scalar F]

/-- The entry of a column in a row where it has a nonzero. -/
theorem CandidateColumn.exists_valueAt? {column : CandidateColumn F}
    (hordered : column.entries.Ordered) {row : ℕ} (h : column.hits row = true) :
  ∃ value, column.entries.valueAt? row = some value ∧ (value == 0) = false
  := by
  obtain ⟨⟨i, value⟩, hentry, hvalue⟩ := List.any_eq_true.mp h
  rw [Bool.and_eq_true, beq_iff_eq, Bool.not_eq_true'] at hvalue
  obtain ⟨rfl, hvalue⟩ := hvalue
  refine ⟨value, ?_, hvalue⟩
  unfold SparseVector.valueAt?
  cases hfind : column.entries.find? fun entry => entry.1 == i with
  | none =>
      have hnone := List.find?_eq_none.mp hfind (i, value) hentry
      simp at hnone
  | some other =>
      have hother : other.1 = i := by simpa using List.find?_some hfind
      have hsame := List.inj_on_of_nodup_map hordered.nodup
        (List.mem_of_find?_eq_some hfind) hentry hother
      rw [hsame]
      rfl

/-- The column of a candidate with a nonzero in a row. -/
theorem Elimination.exists_of_hits {state : Elimination F} {k row : ℕ}
    (h : state.hits k row = true) :
  ∃ column, state.candidates[k]? = some column ∧ column.hits row = true
  := by
  unfold Elimination.hits at h
  cases hk : state.candidates[k]? with
  | none =>
      rw [hk] at h
      cases h
  | some column =>
      rw [hk] at h
      exact ⟨column, rfl, h⟩

/-- A row whose entry is zero is not chosen while the largest magnitude is not below a tolerance. -/
def RowSelection.PassesOverZero (selection : RowSelection F) (tolerance : F) : Prop :=
  ∀ best value : F, ¬ best < tolerance → selection.Admits best (Scalar.magnitude value) →
    (value == 0) = false

/-- An entry that is compared with a positive tolerance and chosen for its size is not zero. -/
theorem RowSelection.passesOverZero_largestMagnitude [LawfulScalar F] {tolerance : F}
    (h : 0 < tolerance) :
  (largestMagnitude : RowSelection F).PassesOverZero tolerance
  := by
  intro best value hbest hadmits
  apply LawfulScalar.beq_zero_eq_false h
  rw [show Scalar.magnitude value = best from hadmits]
  apply hbest

namespace Placement

variable {model : Model F} {indices : List ℕ} {placement : Placement F} {k row : ℕ}
  {tolerance : F} {context : Context F}

/-! ### Steps that do not fail -/

/-- What a placement needs for its steps: accounts of rows and variables, eta columns of the right
size, and columns waiting for their commit that are not zero in their rows. -/
structure Ready (model : Model F) (indices : List ℕ) (placement : Placement F) : Prop where
  placed : placement.Placed model indices
  shaped : placement.Shaped (model.nrRows + 1)
  staged : placement.file.staged = none
  deferred : ∀ pair ∈ placement.deferred, placement.elimination.hits pair.1 pair.2 = true

/-- A column that is not zero in its pivot row can be committed. -/
theorem exists_commit? (placement : Placement F) {column : EtaColumn F}
    (h : (column.pivot == 0) = false) :
  ∃ committed, placement.commit? column = some committed
  := by
  obtain ⟨inverse, hinverse⟩ := EtaColumn.exists_invert? h
  have hcommit := EtaFile.commit?_of_staged (placement.file.staged_stage column) false
  rw [if_neg Bool.false_ne_true, hinverse, Option.map_some] at hcommit
  unfold commit?
  rw [hcommit]
  exact ⟨_, rfl⟩

/-- The column of a candidate can be committed in a row where it has a nonzero. -/
theorem Ready.exists_ofSparse? (h : placement.Ready model indices)
    (hhits : placement.elimination.hits k row = true) (hrow : row < model.nrRows + 1) :
  ∃ candidate column, placement.elimination.candidates[k]? = some candidate
    ∧ EtaColumn.ofSparse? candidate.entries row candidate.owner = some column
    ∧ column.Fits (model.nrRows + 1) ∧ (column.pivot == 0) = false
  := by
  obtain ⟨candidate, hcandidate, hhits⟩ := Elimination.exists_of_hits hhits
  obtain ⟨hordered, hbound⟩ := h.placed.column_ordered hcandidate
  obtain ⟨value, hvalue, hne⟩ := candidate.exists_valueAt? hordered hhits
  have hsome : ∃ column,
      EtaColumn.ofSparse? candidate.entries row candidate.owner = some column := by
    unfold EtaColumn.ofSparse?
    rw [if_pos hordered]
    exact ⟨_, rfl⟩
  obtain ⟨column, hcolumn⟩ := hsome
  obtain ⟨-, -, hpivot, -⟩ := EtaColumn.ofSparse?_spec hcolumn
  rw [hvalue, Option.getD_some] at hpivot
  refine ⟨candidate, column, hcandidate, hcolumn, ?_, ?_⟩
  · apply EtaColumn.fits_of_ofSparse? hcolumn hrow hbound
  · rw [hpivot, hne]

/-- A column that waits goes on hitting its row. -/
theorem Ready.deferred_congr (h : placement.Ready model indices) {elimination : Elimination F}
    (hcandidates : elimination.candidates = placement.elimination.candidates) :
  ∀ pair ∈ placement.deferred, elimination.hits pair.1 pair.2 = true
  := by
  intro pair hpair
  rw [hits_congr hcandidates]
  apply h.deferred pair hpair

theorem Ready.commit? (h : placement.Ready model indices) {column : EtaColumn F}
    {committed : Placement F} (hfits : column.Fits (model.nrRows + 1))
    (hcommit : placement.commit? column = some committed) :
  committed.Ready model indices ∧ committed.elimination = placement.elimination
  := by
  have hplaced := h.placed.commit? hcommit
  have hshaped := h.shaped.commit? hfits hcommit
  obtain ⟨inverse, -, hcommitted⟩ := commit?_spec hcommit
  rw [hcommitted] at hplaced hshaped ⊢
  exact ⟨⟨hplaced, hshaped, rfl, h.deferred⟩, rfl⟩

/-- Committing a column and giving its pivot row to a candidate. -/
theorem Ready.exists_pivot (h : placement.Ready model indices) {column : EtaColumn F}
    (hk : placement.elimination.isUnassigned k = true)
    (hrow : placement.elimination.isFree row = true) (hfits : column.Fits (model.nrRows + 1))
    (hpivot : (column.pivot == 0) = false) :
  ∃ committed result rows columns, placement.commit? column = some committed
    ∧ committed.place? k row = some (result, rows, columns) ∧ result.Ready model indices
  := by
  obtain ⟨committed, hcommit⟩ := placement.exists_commit? hpivot
  obtain ⟨hready, helimination⟩ := h.commit? hfits hcommit
  rw [← helimination] at hk hrow
  obtain ⟨candidate, elimination, rows, columns, -, hplace, hresult, hcandidates, -⟩ :=
    hready.placed.place?_eq hk hrow
  refine ⟨committed, _, rows, columns, hcommit, hplace, hresult, (hready.shaped.place? hplace).1,
    hready.staged, ?_⟩
  apply hready.deferred_congr hcandidates

/-- Giving a candidate a row where it has a nonzero, its commit put off. -/
theorem Ready.exists_defer (h : placement.Ready model indices)
    (hk : placement.elimination.isUnassigned k = true)
    (hrow : placement.elimination.isFree row = true)
    (hhits : placement.elimination.hits k row = true) :
  ∃ placed rows columns, placement.place? k row = some (placed, rows, columns)
    ∧ Ready model indices { placed with deferred := (k, row) :: placed.deferred }
  := by
  obtain ⟨candidate, elimination, rows, columns, -, hplace, hresult, hcandidates, -⟩ :=
    h.placed.place?_eq hk hrow
  obtain ⟨hshaped, hrowLt⟩ := h.shaped.place? hplace
  refine ⟨_, rows, columns, hplace, ?_⟩
  constructor
  case placed => exact { hresult with }
  case shaped =>
    refine { hshaped with deferred := ?_ }
    intro pair hpair
    rcases List.mem_cons.mp hpair with rfl | hpair
    · apply hrowLt
    · apply h.shaped.deferred pair hpair
  case staged => apply h.staged
  case deferred =>
    intro pair hpair
    rcases List.mem_cons.mp hpair with rfl | hpair
    · change elimination.hits k row = true
      rw [hits_congr hcandidates, hhits]
    · apply h.deferred_congr hcandidates pair hpair

/-! ### Phases that do not fail -/

theorem Ready.exists_takeRow? (h : placement.Ready model indices) (tolerance : F) (row : ℕ)
    (queues : SingletonQueues) :
  ∃ result later, takeRow? tolerance row placement queues = some (result, later)
    ∧ result.Ready model indices
  := by
  unfold takeRow?
  cases hfilter : (placement.elimination.columnFor? row).filter fun k =>
      placement.elimination.isAcceptable tolerance k row with
  | none => exact ⟨placement, queues, rfl, h⟩
  | some k =>
      obtain ⟨hcolumnFor, -⟩ := Option.filter_eq_some_iff.mp hfilter
      obtain ⟨hrow, hk, hhits, -⟩ := h.placed.counted.columnFor?_spec hcolumnFor
      obtain ⟨candidate, column, hcandidate, hcolumn, hfits, hpivot⟩ :=
        h.exists_ofSparse? hhits (h.placed.row_lt hrow)
      obtain ⟨committed, result, rows, columns, hcommit, hplace, hresult⟩ :=
        h.exists_pivot hk hrow hfits hpivot
      refine ⟨result, queues.add rows columns, ?_, hresult⟩
      dsimp only
      rw [commitRaw?_of_ofSparse? hcandidate hcolumn, hcommit, Option.bind_eq_bind,
        Option.bind_some, hplace]
      rfl

theorem Ready.exists_takeColumn? (h : placement.Ready model indices) (tolerance : F) (k : ℕ)
    (queues : SingletonQueues) :
  ∃ result later, takeColumn? tolerance k placement queues = some (result, later)
    ∧ result.Ready model indices
  := by
  unfold takeColumn?
  cases hfilter : (placement.elimination.rowFor? k).filter fun row =>
      placement.elimination.isAcceptable tolerance k row with
  | none => exact ⟨placement, queues, rfl, h⟩
  | some row =>
      obtain ⟨hrowFor, -⟩ := Option.filter_eq_some_iff.mp hfilter
      obtain ⟨hk, hrow, hhits, -⟩ := h.placed.counted.rowFor?_spec hrowFor
      obtain ⟨placed, rows, columns, hplace, hresult⟩ := h.exists_defer hk hrow hhits
      refine ⟨_, queues.add rows columns, ?_, hresult⟩
      dsimp only
      rw [hplace]
      rfl

/-- A chosen entry is not zero. -/
theorem beq_zero_of_pivotRow?
    (hselection : context.rowSelection.PassesOverZero context.tolerances.factorizationPivot)
    {state : Elimination F} {column : DenseVector F}
    (h : pivotRow? context state column = some row) :
  ∃ value, column[row]? = some value ∧ (value == 0) = false
  := by
  obtain ⟨-, value, best, hvalue, hbest, hadmits, -⟩ := admits_of_pivotRow? h
  exact ⟨value, hvalue, hselection best value hbest hadmits⟩

theorem Ready.exists_placeTransformed? (h : placement.Ready model indices)
    (hselection : context.rowSelection.PassesOverZero context.tolerances.factorizationPivot)
    (hk : placement.elimination.isUnassigned k = true) :
  ∃ result, placement.placeTransformed? context k = some result ∧ result.Ready model indices
  := by
  obtain ⟨candidate, hcandidate⟩ := h.placed.exists_candidate hk
  obtain ⟨-, hbound⟩ := h.placed.column_ordered hcandidate
  obtain ⟨raw, hraw, hrawLength⟩ := SparseVector.exists_toDense? hbound
  obtain ⟨solved, hsolved, hsolvedLength⟩ := h.shaped.fits.exists_applyRight? hrawLength
  unfold placeTransformed?
  rw [hcandidate, Option.bind_eq_bind, Option.bind_some, h.placed.length, hraw,
    Option.bind_eq_bind, Option.bind_some, hsolved, Option.bind_eq_bind, Option.bind_some]
  dsimp only
  set column := DenseVector.roundRelative context.tolerances.drop solved with hcolumn
  cases hchoice : pivotRow? context placement.elimination column with
  | some row =>
      obtain ⟨hrow, -⟩ := admits_of_pivotRow? hchoice
      obtain ⟨value, hvalue, hne⟩ := beq_zero_of_pivotRow? hselection hchoice
      obtain ⟨eta, heta, hetaPivot⟩ := EtaColumn.exists_ofDense? hvalue candidate.owner
      have hfits := (EtaColumn.ofDense?_spec heta).1
      rw [hcolumn, DenseVector.length_roundRelative, hsolvedLength] at hfits
      obtain ⟨committed, result, rows, columns, hcommit, hplace, hresult⟩ :=
        h.exists_pivot hk hrow hfits (by rw [hetaPivot, hne])
      refine ⟨result, ?_, hresult⟩
      dsimp only
      rw [heta, Option.bind_eq_bind, Option.bind_some, hcommit, Option.bind_eq_bind,
        Option.bind_some, hplace]
      rfl
  | none =>
      obtain ⟨elimination, hdrop, hcounted, hcandidates, hfree, hassigned⟩ :=
        h.placed.counted.drop?_eq hk
      have hisFree (i : ℕ) : elimination.isFree i = placement.elimination.isFree i := by
        unfold Elimination.isFree
        rw [hfree]
      have hunassigned := Elimination.isUnassigned_of_set elimination.assigned hassigned
      refine ⟨{ placement with
        elimination, singular := placement.singular ++ [candidate.owner] }, ?_, ?_⟩
      · dsimp only
        rw [hdrop]
        rfl
      · constructor
        case placed => apply h.placed.reject hcandidate hcounted hcandidates hisFree hunassigned
        case shaped => apply h.shaped.reject hcandidates hfree
        case staged => apply h.staged
        case deferred => apply h.deferred_congr hcandidates

/-- The columns that wait can be committed. -/
theorem Ready.exists_commitDeferred? (h : placement.Ready model indices) :
  ∃ committed, placement.commitDeferred? = some committed ∧ committed.file.staged = none
  := by
  have hrows := h.shaped.deferred
  have hhits := h.deferred
  unfold commitDeferred?
  generalize placement.deferred = deferred at hrows hhits ⊢
  induction deferred generalizing placement with
  | nil => exact ⟨placement, rfl, h.staged⟩
  | cons pair deferred ih =>
      obtain ⟨hrow, hrows⟩ := List.forall_mem_cons.mp hrows
      obtain ⟨hhit, hhits⟩ := List.forall_mem_cons.mp hhits
      obtain ⟨candidate, column, hcandidate, hcolumn, hfits, hpivot⟩ :=
        h.exists_ofSparse? hhit hrow
      obtain ⟨committed, hcommit⟩ := placement.exists_commit? hpivot
      obtain ⟨hready, helimination⟩ := h.commit? hfits hcommit
      rw [← helimination] at hhits
      obtain ⟨last, hlast, hstaged⟩ := ih hready hrows hhits
      refine ⟨last, ?_, hstaged⟩
      rw [List.foldlM_cons, commitRaw?_of_ofSparse? hcandidate hcolumn, hcommit]
      apply hlast

/-- Nothing can fail at the start. -/
theorem exists_start?_ready (hnodup : (indices.filter fun v => v ≤ model.nrRows).Nodup)
    (hindices : ∀ v ∈ indices, 0 < v ∧ v < model.nrVariables) :
  ∃ placement, start? model indices = some placement ∧ placement.Ready model indices
  := by
  obtain ⟨placement, hstart, haccounted, hfile, hdeferred⟩ :=
    exists_start?_accounted hnodup hindices
  refine ⟨placement, hstart, haccounted.placed, shaped_of_start? hstart, ?_, ?_⟩
  · rw [hfile]
    apply EtaFile.staged_empty
  · rw [hdeferred]
    intro pair hpair
    cases hpair

end Placement

/-- Variables can be placed when no slack is listed twice. -/
theorem PlacedBasis.exists_of?_of_passesOverZero {context : Context F} {model : Model F}
    {indices : List ℕ}
    (hselection : context.rowSelection.PassesOverZero context.tolerances.factorizationPivot)
    (hnodup : (indices.filter fun v => v ≤ model.nrRows).Nodup)
    (hindices : ∀ v ∈ indices, 0 < v ∧ v < model.nrVariables) :
  ∃ placed, PlacedBasis.of? context model indices = some placed
  := by
  obtain ⟨start, hstart, hready⟩ := Placement.exists_start?_ready hnodup hindices
  have hsingles : ∃ singles,
      start.placeSingletons? context.tolerances.factorizationPivot = some singles
        ∧ singles.Ready model indices :=
    Placement.exists_takeSingletons? (fun row queues h => h.exists_takeRow? _ row queues)
      (fun k queues h => h.exists_takeColumn? _ k queues) _ _ hready
  obtain ⟨singles, hsingles, hready⟩ := hsingles
  obtain ⟨rest, hrest, hready⟩ := Placement.exists_placeRest?
    (fun h hk => h.exists_placeTransformed? hselection hk)
    ((List.range singles.elimination.candidates.length).filter
      singles.elimination.isUnassigned).length hready.placed.lists hready
  obtain ⟨last, hlast, hstaged⟩ := hready.exists_commitDeferred?
  have hzero : 0 ∉ indices := fun h => lt_irrefl 0 (hindices 0 h).1
  exact ⟨_, PlacedBasis.of?_of_phases hzero hstart hsingles hrest hlast hstaged⟩

/-- Distinct variables can be placed when pivots are chosen for their size. -/
theorem PlacedBasis.exists_of? [LawfulScalar F] {context : Context F} {model : Model F}
    {indices : List ℕ} (hpivot : 0 < context.tolerances.factorizationPivot)
    (hselection : context.rowSelection = .largestMagnitude) (hnodup : indices.Nodup)
    (hindices : ∀ v ∈ indices, 0 < v ∧ v < model.nrVariables) :
  ∃ placed, PlacedBasis.of? context model indices = some placed
  := by
  apply exists_of?_of_passesOverZero _ (hnodup.filter _) hindices
  rw [hselection]
  apply RowSelection.passesOverZero_largestMagnitude hpivot

/-! ### Factorizing -/

/-- Three columns of doubles, the third one the sum of the others. -/
def Model.dependent : Model Float where
  matrix := ⟨[[(0, 1), (2, 1)], [(1, 1), (2, 1)], [(0, 1), (1, 1), (2, 2)]], 3, by decide +kernel⟩
  cost := [0, 0, 0]
  rightHandSide := [1, 1, 1]
  relations := [.less, .less, .less]
  goal := .minimize
  bounds := List.replicate 6 (.atLeast 0)
  cost_length := rfl
  rightHandSide_length := rfl
  relations_length := rfl
  bounds_length := rfl

/-- Tolerances in doubles, and pivots chosen for their size. -/
def Context.doubles : Context Float where
  tolerances :=
    { primal := 1e-9, dual := 1e-9, pivot := 1e-9, ratioPivot := 1e-9, factorizationPivot := 1e-9
      drop := 1e-14, harris := 1 }
  policy := {}
  rowSelection := .largestMagnitude

namespace ProductForm

/-- What a factorization does with distinct variables.

There may be fewer or more of them than rows, and dependent columns among them.  There is always a
result.  Every given variable is found once, a slack in its own row, and a structural variable in
some row or among the singular ones, and the rows that none of them holds have their slacks.  The
pivots of the file are the rows of the structural variables, each once, and no update follows
them. -/
theorem factorize?_accounts [LawfulScalar F] {context : Context F} {model : Model F}
    {indices : List ℕ} {form : ProductForm F} (hsize : form.nrRows = model.nrRows)
    (hpivot : 0 < context.tolerances.factorizationPivot)
    (hselection : context.rowSelection = .largestMagnitude) (hnodup : indices.Nodup)
    (hindices : ∀ v ∈ indices, 0 < v ∧ v < model.nrVariables) :
  ∃ outcome, form.factorize? context model indices = some outcome
    ∧ Accounts model.nrRows indices outcome.result.positions outcome.result.singular
      outcome.state.file.pivots
    ∧ outcome.state.file.factorColumns = outcome.state.file.nrColumns
    ∧ BasisFactorization.etaLength outcome.state = 0
    ∧ BasisFactorization.nrPivots outcome.state = 0
  := by
  obtain ⟨placed, hplaced⟩ := PlacedBasis.exists_of? hpivot hselection hnodup hindices
  obtain ⟨haccounts, -, hfactor⟩ := PlacedBasis.accounts_of_of? hnodup hindices hplaced
  obtain ⟨outcome, houtcome, hresult, hfile, -, hpivots, -⟩ := factorize?_of_placed hsize hplaced
  refine ⟨outcome, houtcome, ?_, ?_, ?_, hpivots⟩
  · rw [hresult, hfile]
    apply haccounts
  · rw [hfile, hfactor]
  · change outcome.state.file.nrUpdates = 0
    unfold EtaArena.nrUpdates
    rw [hfile, hfactor]
    apply Nat.sub_self

/-- Of three columns of doubles, the third one the sum of the others, two get rows. -/
theorem factorize?_accounts_dependent :
  (identity 3 : ProductForm Float).nrRows = Model.dependent.nrRows
    ∧ 0 < Context.doubles.tolerances.factorizationPivot
    ∧ Context.doubles.rowSelection = .largestMagnitude
    ∧ ∃ outcome, factorize? Context.doubles Model.dependent [4, 5, 6] (identity 3) = some outcome
      ∧ outcome.result.positions = [0, 4, 5, 3] ∧ outcome.result.singular = [6]
      ∧ Accounts 3 [4, 5, 6] outcome.result.positions outcome.result.singular
        outcome.state.file.pivots
  := by
  have hpivot : 0 < Context.doubles.tolerances.factorizationPivot := by decide +kernel
  have hindices : ∀ v ∈ [4, 5, 6], 0 < v ∧ v < Model.dependent.nrVariables := by decide
  obtain ⟨outcome, houtcome, haccounts, -⟩ :=
    factorize?_accounts (show (identity 3).nrRows = Model.dependent.nrRows from rfl) hpivot rfl
      (by decide) hindices
  have hresult : ((factorize? Context.doubles Model.dependent [4, 5, 6] (identity 3)).bind
      fun outcome => some (outcome.result.positions, outcome.result.singular))
        = some ([0, 4, 5, 3], [6]) := by
    decide +kernel
  rw [houtcome, Option.bind_some, Option.some_inj, Prod.mk_inj] at hresult
  exact ⟨rfl, hpivot, rfl, outcome, houtcome, hresult.1, hresult.2, haccounts⟩

end ProductForm

end RevisedSimplex
