import RevisedSimplex.Proofs.InverseForm
import RevisedSimplex.Proofs.IterateSteps
import RevisedSimplex.Proofs.ProductFormSteps
import RevisedSimplex.Proofs.Tableau

/-!
# Solving from both sides

Applying a file from the left and from the right multiplies with one and the same matrix, the
product of its columns, as soon as the vectors reach over all rows of the file.  For this the pivot
row of a column must not be among its other rows; the files that are `Reached` from the empty one
have this property, whatever was staged and committed.

The files of all product forms that are reached from an identity fit the vectors of their size,
however the variables were chosen that they factorized.  Hence a row times the inverse, multiplied
with the column of a variable, is an entry of the inverse times that column, and a reduced cost is
the first entry of the pivot column.
-/

open Matrix

namespace RevisedSimplex

/-! ### Histories of a file -/

section Histories

variable {F : Type} [Scalar F] {n : ℕ}

namespace EtaColumn

variable {column inverse : EtaColumn F}

/-- The pivot row is not among the other rows. -/
def Split (column : EtaColumn F) : Prop :=
  ∀ i ∈ column.offPivot.positions, i ≠ column.pivotRow

omit [Scalar F] in
theorem Fits.split (h : column.Fits n) :
  column.Split
  := fun i hi => ((fits_iff.mp h).2 i hi).2

theorem split_of_ofSparse? {sparse : SparseVector F} {row owner : ℕ}
    (h : ofSparse? sparse row owner = some column) :
  column.Split
  := by
  obtain ⟨hrow, -, -, hoff⟩ := ofSparse?_spec h
  intro i hi
  obtain ⟨entry, hentry, rfl⟩ := List.mem_map.mp hi
  rw [hrow]
  apply (hoff entry hentry).2

/-- The rows of the opposite column are the same. -/
theorem positions_negate (column : EtaColumn F) :
  column.negate.offPivot.positions = column.offPivot.positions
  := by
  unfold negate SparseVector.positions
  rw [List.map_map]
  rfl

/-- A committed column has the rows of the staged one. -/
theorem rows_of_invert? {flip : Bool}
    (h : (if flip then column.negate else column).invert? = some inverse) :
  inverse.pivotRow = column.pivotRow
    ∧ inverse.offPivot.positions = column.offPivot.positions
  := by
  obtain ⟨hrow, -, hpositions⟩ := invert?_spec h
  cases flip with
  | false => exact ⟨hrow, hpositions⟩
  | true => exact ⟨hrow, hpositions.trans column.positions_negate⟩

end EtaColumn

namespace EtaFile

variable {file committed : EtaFile F} {flip done : Bool}

/-- The files that come from the empty one by staging, committing and discarding columns. -/
inductive Reached : EtaFile F → Prop
  | empty : Reached {}
  | stageDense {file : EtaFile F} {dense : DenseVector F} {row owner : ℕ} {column : EtaColumn F} :
      Reached file → EtaColumn.ofDense? dense row owner = some column →
      Reached (file.stage column)
  | stageSparse {file : EtaFile F} {sparse : SparseVector F} {row owner : ℕ}
      {column : EtaColumn F} :
      Reached file → EtaColumn.ofSparse? sparse row owner = some column →
      Reached (file.stage column)
  | commit {file committed : EtaFile F} {flip done : Bool} :
      Reached file → file.commit? flip = some (done, committed) → Reached committed
  | discardStaged {file : EtaFile F} : Reached file → Reached file.discardStaged
  | markFactorEnd {file marked : EtaFile F} :
      Reached file → file.markFactorEnd? = some marked → Reached marked

/-- All rows of the committed columns lie below `n`. -/
def Covered (n : ℕ) (file : EtaFile F) : Prop :=
  ∀ column ∈ file.columns, column.pivotRow < n ∧ ∀ i ∈ column.offPivot.positions, i < n

/-- The pivot rows of the committed columns and of the staged one are apart from their other
rows. -/
structure Split (file : EtaFile F) : Prop where
  columns : ∀ column ∈ file.columns, column.Split
  staged : ∀ column, file.staged = some column → column.Split

omit [Scalar F] in
theorem Split.stage (h : file.Split) {column : EtaColumn F} (hcolumn : column.Split) :
  (file.stage column).Split
  where
    columns := by
      rw [file.columns_stage column]
      apply h.columns
    staged other hother := by
      rw [staged_stage, Option.some_inj] at hother
      rw [← hother]
      apply hcolumn

omit [Scalar F] in
theorem Split.discardStaged (h : file.Split) :
  file.discardStaged.Split
  where
    columns := by
      rw [file.columns_discardStaged]
      apply h.columns
    staged other hother := by
      rw [staged_discardStaged] at hother
      cases hother

theorem Split.commit? (h : file.Split) (hcommit : file.commit? flip = some (done, committed)) :
  committed.Split
  := by
  rcases commit?_spec hcommit with ⟨-, -, rfl⟩ | ⟨column, inverse, hstaged, hinverse, -, rfl⟩
  · apply h
  · obtain ⟨hrow, hpositions⟩ := EtaColumn.rows_of_invert? hinverse
    constructor
    case columns =>
      intro other hother
      rw [columns_append] at hother
      rcases List.mem_append.mp hother with hold | hnew
      · apply h.columns other hold
      · rw [List.mem_singleton.mp hnew]
        unfold EtaColumn.Split
        rw [hrow, hpositions]
        apply h.staged column hstaged
    case staged =>
      intro other hother
      rw [staged_append] at hother
      cases hother

/-- Every reached file has its pivot rows apart. -/
theorem Reached.split (h : file.Reached) :
  file.Split
  := by
  induction h with
  | empty =>
      constructor
      · intro column hcolumn
        cases hcolumn
      · intro column hcolumn
        cases hcolumn
  | stageDense _ hcolumn ih => apply ih.stage (EtaColumn.ofDense?_spec hcolumn).1.split
  | stageSparse _ hcolumn ih => apply ih.stage (EtaColumn.split_of_ofSparse? hcolumn)
  | commit _ hcommit ih => apply ih.commit? hcommit
  | discardStaged _ ih => apply ih.discardStaged
  | markFactorEnd _ hmarked ih =>
      obtain ⟨-, rfl⟩ := markFactorEnd?_spec hmarked
      exact ⟨ih.columns, ih.staged⟩

/-- A reached file fits all vectors that reach over its rows. -/
theorem Reached.fits (h : file.Reached) (hcovered : file.Covered n) :
  file.Fits n
  := by
  intro column hcolumn
  obtain ⟨hrow, hoff⟩ := hcovered column hcolumn
  apply EtaColumn.fits_iff.mpr
  refine ⟨hrow, ?_⟩
  intro i hi
  exact ⟨hoff i hi, h.split.columns column hcolumn i hi⟩

end EtaFile

end Histories

/-! ### Histories of a product form -/

namespace ProductForm

section Histories

variable {F : Type} [Scalar F] {form : ProductForm F}

/-- The forms that come from an identity by factorizations and updates, whatever the settings and
the variables were. -/
inductive Reached : ProductForm F → Prop
  | identity (nrRows : ℕ) : Reached (identity nrRows)
  | factorize {form : ProductForm F} {context : Context F} {model : Model F} {indices : List ℕ}
      {outcome : Outcome (ProductForm F) Factorization} :
      Reached form → form.factorize? context model indices = some outcome → Reached outcome.state
  | prepareUpdate {form : ProductForm F} {context : Context F} {row entering : ℕ}
      {column : DenseVector F} {prepared : Outcome (ProductForm F) (Except Error F)} :
      Reached form → form.prepareUpdate? context row entering column = some prepared →
      Reached prepared.state
  | finishUpdate {form : ProductForm F} {flip : Bool} {finished : Outcome (ProductForm F) Bool} :
      Reached form → form.finishUpdate? flip = some finished → Reached finished.state
  | mustRefactorize {form : ProductForm F} (context : Context F) (elapsed : ℕ) :
      Reached form → Reached (form.mustRefactorize context elapsed).2
  | forceRefactorization {form : ProductForm F} :
      Reached form → Reached { form with forced := true }

/-- The committed columns and the staged one fit the vectors of the form, and the columns of the
factorization are among the committed ones. -/
structure Shaped (form : ProductForm F) : Prop where
  fits : form.file.Fits (form.nrRows + 1)
  staged : ∀ column, form.file.staged = some column → column.Fits (form.nrRows + 1)
  counted : form.file.factorColumns ≤ form.file.nrColumns

theorem Shaped.finishUpdate? (h : form.Shaped) {flip : Bool}
    {finished : Outcome (ProductForm F) Bool}
    (hfinished : form.finishUpdate? flip = some finished) :
  finished.state.Shaped
  := by
  rcases finishUpdate?_spec hfinished with ⟨-, -, hstate⟩
    | ⟨column, inverse, hstaged, hinverse, -, hstate⟩
  · rw [hstate]
    apply h
  · obtain ⟨hrow, hpositions⟩ := EtaColumn.rows_of_invert? hinverse
    have hfits : inverse.Fits (form.nrRows + 1) := by
      rw [EtaColumn.fits_iff, hrow, hpositions]
      apply EtaColumn.fits_iff.mp (h.staged column hstaged)
    rw [hstate]
    constructor
    case fits =>
      apply h.fits.append hfits (form.file.columns_append inverse)
    case staged =>
      intro other hother
      rw [extended, EtaFile.staged_append] at hother
      cases hother
    case counted =>
      change form.file.factorColumns ≤ (form.file.append inverse).nrColumns
      rw [EtaFile.nrColumns_append]
      apply Nat.le_add_right_of_le h.counted

/-- A form that comes from a factorization fits, whatever it was before. -/
theorem shaped_of_factorize? {context : Context F} {model : Model F} {indices : List ℕ}
    {outcome : Outcome (ProductForm F) Factorization}
    (h : form.factorize? context model indices = some outcome) :
  outcome.state.Shaped
  := by
  obtain ⟨hsize, placed, hplaced, -, hstate⟩ := factorize?_spec h
  obtain ⟨hfits, hstaged, hcounted⟩ := PlacedBasis.fits_of_of? hplaced
  rw [hstate]
  constructor
  case fits =>
    change placed.file.Fits (form.nrRows + 1)
    rw [hsize]
    apply hfits
  case staged =>
    intro column hcolumn
    change placed.file.staged = some column at hcolumn
    rw [hstaged] at hcolumn
    cases hcolumn
  case counted => apply hcounted.le

/-- What is staged fits, because the solved column does. -/
theorem Shaped.prepareUpdate? (h : form.Shaped) {context : Context F} {row entering : ℕ}
    {column : DenseVector F} {prepared : Outcome (ProductForm F) (Except Error F)}
    (hprepared : form.prepareUpdate? context row entering column = some prepared) :
  prepared.state.Shaped
  := by
  obtain ⟨hlength, staged, hstaged, hcases⟩ := prepareUpdate?_spec hprepared
  have hfits := (EtaColumn.ofDense?_spec hstaged).1
  rw [hlength] at hfits
  rcases hcases with ⟨-, -, hstate⟩ | ⟨-, -, hstate⟩
  · rw [hstate]
    constructor
    case fits => apply h.fits.discardStaged
    case staged =>
      intro other hother
      rw [EtaFile.staged_discardStaged] at hother
      cases hother
    case counted => apply h.counted
  · rw [hstate]
    constructor
    case fits => apply h.fits.stage
    case staged =>
      intro other hother
      rw [EtaFile.staged_stage, Option.some_inj] at hother
      rw [← hother]
      apply hfits
    case counted => apply h.counted

/-- Every reached form fits the vectors of its size. -/
theorem Reached.shaped (h : form.Reached) :
  form.Shaped
  := by
  induction h with
  | identity nrRows =>
      constructor
      case fits => apply EtaFile.fits_empty
      case staged =>
        intro column hcolumn
        cases hcolumn
      case counted => apply Nat.zero_le
  | factorize _ houtcome _ => apply shaped_of_factorize? houtcome
  | prepareUpdate _ hprepared ih => apply ih.prepareUpdate? hprepared
  | finishUpdate _ hfinished ih => apply ih.finishUpdate? hfinished
  | @mustRefactorize form context elapsed _ ih =>
      obtain ⟨clock, hclock⟩ := mustRefactorize_snd context elapsed form
      rw [hclock]
      exact ⟨ih.fits, ih.staged, ih.counted⟩
  | forceRefactorization _ ih => exact ⟨ih.fits, ih.staged, ih.counted⟩

end Histories

end ProductForm

/-! ### Adjoint solves -/

section Adjoint

variable {F : Type} [ExactScalar F] {n : ℕ}

/-- Both ways of applying a file that fits multiply with its matrix, and have the same inner
products. -/
theorem EtaFile.Fits.inner_applyLeft?_eq {file : EtaFile F} (h : file.Fits n)
    {x y : DenseVector F} (hx : x.length = n) (hy : y.length = n) :
  ∃ left right, file.applyLeft? x = some left ∧ file.applyRight? y = some right
    ∧ left.length = n ∧ right.length = n
    ∧ left.entries n = x.entries n ᵥ* file.matrix n
    ∧ right.entries n = file.matrix n *ᵥ y.entries n
    ∧ left.inner y = x.inner right
  := by
  obtain ⟨left, hleft, hleftLength, hleftEntries⟩ := h.applyLeft?_eq hx
  obtain ⟨right, hright, hrightLength, hrightEntries⟩ := h.applyRight?_eq hy
  refine ⟨left, right, hleft, hright, hleftLength, hrightLength, hleftEntries, hrightEntries, ?_⟩
  rw [DenseVector.inner_eq_dotProduct hleftLength hy,
    DenseVector.inner_eq_dotProduct hx hrightLength, hleftEntries, hrightEntries,
    dotProduct_mulVec]

namespace ProductForm

variable {form : ProductForm F} {context : Context F} {model : Model F}

/-- A row of the inverse times the column of a variable is an entry of the solved column. -/
theorem Shaped.inner?_btran?_eq (h : form.Shaped) (hsize : form.nrRows = model.nrRows)
    (hdrop : context.tolerances.drop = 0) {v i : ℕ} (hv : v < model.nrVariables)
    (hi : i ≤ model.nrRows) :
  ∃ unit row column dense solved value,
    DenseVector.unit? i (model.nrRows + 1) = some unit
      ∧ form.btran? context unit = some row
      ∧ model.column? v = some column ∧ column.inner? row = some value
      ∧ model.denseColumn? v = some dense
      ∧ form.ftran? context dense = some solved ∧ solved[i]? = some value
  := by
  have hfits := h.fits
  rw [hsize] at hfits
  have hsize : form.nrRows + 1 = model.nrRows + 1 := by rw [hsize]
  let position : Fin (model.nrRows + 1) := ⟨i, Nat.lt_succ_of_le hi⟩
  obtain ⟨unit, hunit, hunitLength, hunitEntries⟩ := DenseVector.unit?_eq (F := F) position
  obtain ⟨row, hrow, hrowLength, hrowEntries⟩ := btran?_eq hdrop hsize hfits hunitLength
  rw [hunitEntries] at hrowEntries
  obtain ⟨column, hcolumn, -⟩ := model.column?_eq hv
  obtain ⟨dense, hdense, hdenseLength, hdenseEntries⟩ := model.denseColumn?_eq hv
  obtain ⟨solved, hsolved, hsolvedLength, hsolvedEntries⟩ :=
    ftran?_eq hdrop hsize hfits hdenseLength
  refine ⟨unit, row, column, dense, solved, _, hunit, hrow, hcolumn,
    Iterate.inner?_pivotRow hrowLength hrowEntries hcolumn, hdense, hsolved, ?_⟩
  rw [DenseVector.getElem?_eq_entries hsolvedLength position, hsolvedEntries, hdenseEntries]
  rfl

/-- A reduced cost is the first entry of the pivot column. -/
theorem Shaped.loadColumn?_candidate (h : form.Shaped) (hsize : form.nrRows = model.nrRows)
    (hdrop : context.tolerances.drop = 0) {iterate : Iterate F}
    (hpivotColumn : iterate.pivotColumn.length = model.nrRows + 1)
    {unit multipliers : DenseVector F} {movable : List (Nonbasic F)}
    {candidates : List (Candidate F)}
    (hunit : DenseVector.unit? 0 (model.nrRows + 1) = some unit)
    (hmultipliers : form.btran? context unit = some multipliers)
    (hmovable : iterate.movable? context.tolerances model = some movable)
    (hcandidates : Candidate.list? context.tolerances multipliers movable = some candidates)
    {candidate : Candidate F} (hmem : candidate ∈ candidates) :
  ∃ loaded, iterate.loadColumn? context model form candidate.index = some loaded
    ∧ loaded.pivotColumn[0]? = some candidate.reducedCost
  := by
  obtain ⟨x, hx, hindex, hcost, -⟩ := Candidate.mem_list? hcandidates hmem
  obtain ⟨hnonbasic, -, hcolumn⟩ := Iterate.mem_movable? hmovable hx
  rw [hindex] at hnonbasic hcolumn
  obtain ⟨other, row, column, dense, solved, value, hother, hrow, hread, hvalue, hdense, hsolved,
    hentry⟩ := h.inner?_btran?_eq hsize hdrop (Model.lt_of_column? hcolumn) (Nat.zero_le _)
  rw [hunit, Option.some_inj] at hother
  subst hother
  rw [hmultipliers, Option.some_inj] at hrow
  subst hrow
  rw [hcolumn, Option.some_inj] at hread
  subst hread
  rw [hcost, Option.some_inj] at hvalue
  subst hvalue
  unfold Model.denseColumn? at hdense
  rw [hcolumn, Option.bind_eq_bind, Option.bind_some] at hdense
  refine ⟨{ iterate with pivotColumn := solved }, ?_, hentry⟩
  unfold Iterate.loadColumn?
  rw [if_pos hnonbasic, hcolumn, Option.bind_eq_bind, Option.bind_some, hpivotColumn, hdense,
    Option.bind_eq_bind, Option.bind_some]
  change (form.ftran? context dense).bind _ = _
  rw [hsolved]
  rfl

/-- Solving from the left and solving from the right are adjoint.

For a file with any history, and vectors that reach over all its rows, both multiply with the
product of its columns.  Hence for a product form with any history, without rounding, a row of the
inverse times the column of a variable is the entry of its solved column, and the reduced cost of
every candidate is the first entry of its pivot column. -/
theorem Reached.solves_adjoint {file : EtaFile F} (hfile : file.Reached) (hcovered : file.Covered n)
    {x y : DenseVector F} (hx : x.length = n) (hy : y.length = n) (hform : form.Reached)
    (hsize : form.nrRows = model.nrRows) (hdrop : context.tolerances.drop = 0) :
  (∃ left right, file.applyLeft? x = some left ∧ file.applyRight? y = some right
      ∧ left.length = n ∧ right.length = n
      ∧ left.entries n = x.entries n ᵥ* file.matrix n
      ∧ right.entries n = file.matrix n *ᵥ y.entries n
      ∧ left.inner y = x.inner right)
    ∧ (∀ v < model.nrVariables, ∀ i ≤ model.nrRows, ∃ unit row column dense solved value,
      DenseVector.unit? i (model.nrRows + 1) = some unit
        ∧ form.btran? context unit = some row
        ∧ model.column? v = some column ∧ column.inner? row = some value
        ∧ model.denseColumn? v = some dense
        ∧ form.ftran? context dense = some solved ∧ solved[i]? = some value)
    ∧ (∀ (iterate : Iterate F) (unit multipliers : DenseVector F) (movable : List (Nonbasic F))
        (candidates : List (Candidate F)),
      iterate.pivotColumn.length = model.nrRows + 1 →
      DenseVector.unit? 0 (model.nrRows + 1) = some unit →
      form.btran? context unit = some multipliers →
      iterate.movable? context.tolerances model = some movable →
      Candidate.list? context.tolerances multipliers movable = some candidates →
      ∀ candidate ∈ candidates,
        ∃ loaded, iterate.loadColumn? context model form candidate.index = some loaded
          ∧ loaded.pivotColumn[0]? = some candidate.reducedCost)
  := by
  have hshaped := hform.shaped
  refine ⟨(hfile.fits hcovered).inner_applyLeft?_eq hx hy, ?_, ?_⟩
  · intro v hv i hi
    apply hshaped.inner?_btran?_eq hsize hdrop hv hi
  · intro iterate unit multipliers movable candidates hpivotColumn hunit hmultipliers hmovable
      hcandidates candidate hmem
    apply hshaped.loadColumn?_candidate hsize hdrop hpivotColumn hunit hmultipliers hmovable
      hcandidates hmem

/-- A file with one column, and the inverse of both columns of the sample model. -/
theorem Reached.solves_adjoint_sample :
  ∃ (file : EtaFile ℚ) (form : ProductForm ℚ),
    file.Reached ∧ file.Covered 3 ∧ file.nrColumns = 1
      ∧ form.Reached ∧ form.nrRows = Model.sample.nrRows ∧ form.file.nrColumns = 2
      ∧ Context.sample.tolerances.drop = 0
      ∧ (∃ left right, file.applyLeft? [1, 2, 3] = some left
        ∧ file.applyRight? [4, 5, 6] = some right
        ∧ left.inner [4, 5, 6] = DenseVector.inner [1, 2, 3] right)
      ∧ ∃ unit row column dense solved value, DenseVector.unit? 1 3 = some unit
        ∧ form.btran? Context.sample unit = some row
        ∧ Model.sample.column? 4 = some column ∧ column.inner? row = some value
        ∧ Model.sample.denseColumn? 4 = some dense
        ∧ form.ftran? Context.sample dense = some solved ∧ solved[1]? = some value
  := by
  have hcommitted : ((EtaColumn.ofDense? [0, 2, 1] 1 3).bind fun column : EtaColumn ℚ =>
      ((EtaFile.stage {} column).commit? false).map fun answer =>
        (answer.1, answer.2.columns.map fun other =>
          (other.pivotRow, other.offPivot.positions))) = some (true, [(1, [2])]) := by
    decide +kernel
  obtain ⟨column, hstaged, hcommitted⟩ := Option.bind_eq_some_iff.mp hcommitted
  obtain ⟨⟨done, file⟩, hcommit, hrows⟩ := Option.map_eq_some_iff.mp hcommitted
  have hrows := (Prod.mk_inj.mp hrows).2
  have hfile : file.Reached := .commit (.stageDense .empty hstaged) hcommit
  have hcovered : file.Covered 3 := by
    intro other hother
    have hmem := List.mem_map_of_mem (f := fun c => (c.pivotRow, c.offPivot.positions)) hother
    rw [hrows, List.mem_singleton, Prod.mk_inj] at hmem
    rw [hmem.1, hmem.2]
    decide
  have hone : file.nrColumns = 1 := by
    have hlength := congrArg List.length hrows
    rw [List.length_map, ← file.nrColumns_eq] at hlength
    apply hlength
  have hfactorized : ((factorize? Context.sample Model.sample [3, 4] (.identity 2)).bind
      fun outcome => some (outcome.state.nrRows, outcome.state.file.nrColumns)) = some (2, 2) := by
    decide +kernel
  obtain ⟨outcome, houtcome, hsizes⟩ := Option.bind_eq_some_iff.mp hfactorized
  rw [Option.some_inj, Prod.mk_inj] at hsizes
  have hform : outcome.state.Reached := .factorize (.identity 2) houtcome
  have hsize : outcome.state.nrRows = Model.sample.nrRows := hsizes.1
  have hdrop : Context.sample.tolerances.drop = 0 := rfl
  obtain ⟨⟨left, right, hleft, hright, -, -, -, -, hinner⟩, hentries, -⟩ :=
    Reached.solves_adjoint hfile hcovered (x := [1, 2, 3]) (y := [4, 5, 6]) rfl rfl hform hsize
      hdrop
  exact ⟨file, outcome.state, hfile, hcovered, hone, hform, hsize, hsizes.2, hdrop,
    ⟨left, right, hleft, hright, hinner⟩, hentries 4 (by decide) 1 (by decide)⟩

end ProductForm

end Adjoint

end RevisedSimplex
