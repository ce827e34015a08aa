import RevisedSimplex.Proofs.FactorizationAccounts
import RevisedSimplex.Proofs.PackedNumbers
import RevisedSimplex.Proofs.PlacementTurns
import RevisedSimplex.Proofs.ProductFormSteps
import RevisedSimplex.Proofs.ZeroEntries

/-!
# Zero pivots

A pivot is compared with a tolerance before it is divided by, and the comparison lets a pivot pass
that is not below the tolerance.  A context sets zero apart when no zero passes: both tolerances of
pivots are positive, and the least magnitude that the sparsest row needs is not rounded to zero.
With such contexts neither a factorization nor an update divides by zero, whether the columns are
dependent or not, and a column that is zero in all free rows when it has its turn is singular.

The settings that are accepted include tolerances of zero, and thresholds that vanish in a product.
With each of them a column without a nonzero pivot passes, and its commit fails.
-/

namespace RevisedSimplex

variable {F : Type} [Scalar F]

/-! ### Contexts -/

/-- The least magnitude that a rule asks for is not rounded to zero, as long as the largest one is
not below the tolerance. -/
def RowSelection.Resolves (tolerance : F) : RowSelection F → Prop
  | largestMagnitude => True
  | markowitz threshold => ∀ best : F, ¬ best < tolerance → ¬ threshold * best ≤ 0

theorem RowSelection.Resolves.passesOverZero [LawfulScalar F] [SymmetricZero F]
    {selection : RowSelection F} {tolerance : F} (h : selection.Resolves tolerance)
    (htolerance : 0 < tolerance) :
  selection.PassesOverZero tolerance
  := by
  cases selection with
  | largestMagnitude => apply passesOverZero_largestMagnitude htolerance
  | markowitz threshold =>
      intro best value hbest hadmits
      rw [Bool.eq_false_iff]
      intro hzero
      apply h best hbest (SymmetricZero.le_zero hzero hadmits)

/-- No zero is large enough for a pivot. -/
structure Context.SetsZeroApart (context : Context F) : Prop where
  pivot : 0 < context.tolerances.pivot
  factorizationPivot : 0 < context.tolerances.factorizationPivot
  rowSelection : context.rowSelection.Resolves context.tolerances.factorizationPivot

/-- Products of exact numbers are not rounded. -/
theorem Context.setsZeroApart_of_positive {F : Type} [ExactScalar F] {context : Context F}
    (hpivot : 0 < context.tolerances.pivot)
    (hfactorization : 0 < context.tolerances.factorizationPivot)
    (hselection : context.rowSelection.Positive) :
  context.SetsZeroApart
  := by
  refine ⟨hpivot, hfactorization, ?_⟩
  cases hrule : context.rowSelection with
  | largestMagnitude => trivial
  | markowitz threshold =>
      rw [hrule] at hselection
      intro best hbest
      rw [not_le]
      apply mul_pos hselection (hfactorization.trans_le (not_lt.mp hbest))

/-! ### Columns -/

/-- The column is the inverse of one that is not zero in its pivot row. -/
def EtaColumn.Inverted (column : EtaColumn F) : Prop :=
  ∃ staged : EtaColumn F, (staged.pivot == 0) = false ∧ staged.invert? = some column

/-- All columns of the file are inverses. -/
def EtaFile.Inverted (file : EtaFile F) : Prop :=
  ∀ column ∈ file.columns, column.Inverted

theorem EtaFile.inverted_empty :
  ({} : EtaFile F).Inverted
  := by
  intro column hcolumn
  cases hcolumn

theorem EtaFile.Inverted.append {file : EtaFile F} (h : file.Inverted)
    {staged inverse : EtaColumn F} (hinverse : staged.invert? = some inverse) :
  (file.append inverse).Inverted
  := by
  intro column hcolumn
  rw [EtaFile.columns_append] at hcolumn
  rcases List.mem_append.mp hcolumn with hold | hnew
  · apply h column hold
  · rw [List.mem_singleton.mp hnew]
    exact ⟨staged, EtaColumn.pivot_of_invert? hinverse, hinverse⟩

namespace Placement

variable {placement result committed : Placement F} {k row : ℕ} {tolerance : F}
  {context : Context F} {model : Model F} {indices : List ℕ} {queues later : SingletonQueues}

/-! ### Placements -/

theorem inverted_of_commit? (h : placement.file.Inverted) {column : EtaColumn F}
    (hcommit : placement.commit? column = some committed) :
  committed.file.Inverted
  := by
  obtain ⟨inverse, hinverse, rfl⟩ := commit?_spec hcommit
  apply h.append hinverse

theorem inverted_of_commitRaw? (h : placement.file.Inverted)
    (hcommit : placement.commitRaw? k row = some committed) :
  committed.file.Inverted
  := by
  obtain ⟨candidate, column, -, -, hcommit⟩ := commitRaw?_spec hcommit
  apply inverted_of_commit? h hcommit

/-- Giving a candidate a row commits no column. -/
theorem file_of_place? {rows columns : List ℕ}
    (h : placement.place? k row = some (result, rows, columns)) :
  result.file = placement.file
  := by
  obtain ⟨_, _, -, -, -, -, -, -, rfl⟩ := place?_spec h
  rfl

theorem inverted_of_takeRow? (h : placement.file.Inverted)
    (htake : takeRow? tolerance row placement queues = some (result, later)) :
  result.file.Inverted
  := by
  rcases takeRow?_spec htake with ⟨rfl, -⟩
    | ⟨k, committed, rows, columns, -, -, hcommit, hplace, -⟩
  · apply h
  · rw [file_of_place? hplace]
    apply inverted_of_commitRaw? h hcommit

theorem inverted_of_takeColumn? (h : placement.file.Inverted)
    (htake : takeColumn? tolerance k placement queues = some (result, later)) :
  result.file.Inverted
  := by
  rcases takeColumn?_spec htake with ⟨rfl, -⟩ | ⟨row, placed, rows, columns, -, -, hplace, rfl, -⟩
  · apply h
  · rw [← file_of_place? hplace] at h
    apply h

theorem inverted_of_placeTransformed? (h : placement.file.Inverted)
    (hplace : placement.placeTransformed? context k = some result) :
  result.file.Inverted
  := by
  obtain ⟨candidate, raw, solved, -, -, -, hcases⟩ := placeTransformed?_spec hplace
  rcases hcases with ⟨row, column, committed, rows, columns, -, -, hcommit, hplaced⟩
    | ⟨-, elimination, -, rfl⟩
  · rw [file_of_place? hplaced]
    apply inverted_of_commit? h hcommit
  · apply h

/-- There is no column at the start. -/
theorem inverted_of_start? (h : start? model indices = some placement) :
  placement.file.Inverted
  := by
  obtain ⟨positions, candidates, -, -, rfl⟩ := start?_spec h
  apply EtaFile.inverted_empty

/-! ### Singular columns -/

/-- The column is zero in all free rows. -/
def Vanishes (placement : Placement F) (column : DenseVector F) : Prop :=
  ∀ row, row ≠ 0 → placement.elimination.isFree row = true → column.VanishesAt row

/-- A column that is zero in all free rows has no pivot row. -/
theorem Vanishes.pivotRow?_eq_none [LawfulScalar F] {column : DenseVector F}
    (h : placement.Vanishes column) (hpivot : 0 < context.tolerances.factorizationPivot) :
  pivotRow? context placement.elimination column = none
  := by
  cases hchoice : pivotRow? context placement.elimination column with
  | none => rfl
  | some row =>
      obtain ⟨-, _, best, -, hbest, -, i, value, hi, hfree, hvalue, hmagnitude⟩ :=
        admits_of_pivotRow? hchoice
      rw [hmagnitude] at hbest
      exact absurd (LawfulScalar.magnitude_lt (h i hi hfree value hvalue) hpivot) hbest

/-- Every candidate that is left comes up, and is singular if its column is zero in all rows that
are free then. -/
theorem singular_of_vanishes [LawfulScalar F] (hpivot : 0 < context.tolerances.factorizationPivot)
    (h : placeRest? context placement.leftovers.length placement.leftovers placement
      = some result) (hk : k ∈ placement.leftovers) :
  ∃ v passed column, placement.ComesUp context k v passed column
    ∧ (passed.Vanishes column → v ∈ result.singular)
  := by
  obtain ⟨turns, passed, after, left, rest, hpassed, hafter, hrest⟩ :=
    exists_turn (le_refl _) h k hk
  obtain ⟨candidate, raw, solved, hcandidate, hraw, hsolved, hcases⟩ :=
    placeTransformed?_spec hafter
  refine ⟨candidate.owner, passed, _,
    ⟨⟨turns, hpassed⟩, candidate, raw, solved, hcandidate, rfl, hraw, hsolved, rfl⟩, ?_⟩
  intro hvanishes
  rcases hcases with ⟨row, column, committed, rows, columns, hchoice, -⟩
    | ⟨-, elimination, -, rfl⟩
  · rw [hvanishes.pivotRow?_eq_none hpivot] at hchoice
    cases hchoice
  · apply singular_subset_of_placeRest? hrest
    apply List.mem_concat_self

end Placement

/-- All columns of a placed basis are inverses. -/
theorem PlacedBasis.inverted_of_of? {context : Context F} {model : Model F} {indices : List ℕ}
    {placed : PlacedBasis F} (h : PlacedBasis.of? context model indices = some placed) :
  placed.file.Inverted
  := by
  obtain ⟨start, singles, rest, last, file, hstart, hsingles, hrest, hlast, hmark, rfl, -, -⟩ :=
    PlacedBasis.of?_spec h
  have hsingles := Placement.takeSingletons?_induction Placement.inverted_of_takeRow?
    Placement.inverted_of_takeColumn? (Placement.inverted_of_start? hstart) hsingles
  have hrest := Placement.placeRest?_induction Placement.inverted_of_placeTransformed? hsingles
    hrest
  have hlast := Placement.commitDeferred?_induction (fun _ => Placement.inverted_of_commitRaw?)
    hrest hlast
  rw [(EtaFile.markFactorEnd?_spec hmark).2]
  apply hlast

namespace ProductForm

variable {form : ProductForm F} {context : Context F} {model : Model F} {indices : List ℕ}

/-! ### Factorizations -/

/-- What a factorization makes of a list of variables.  Each structural variable has a column with a
nonzero pivot or is singular, as often as it is listed, and a column that is zero in all free rows
when it comes up makes its variable singular. -/
structure Accounted (context : Context F) (model : Model F) (indices : List ℕ)
    (outcome : Outcome (ProductForm F) Factorization) : Prop where
  inverted : outcome.state.file.Inverted
  owners : (outcome.state.file.columns.map EtaColumn.owner ++ outcome.result.singular).Perm
    (indices.filter fun v => model.nrRows < v)
  dependent : ∃ start singles, Placement.start? model indices = some start
    ∧ start.placeSingletons? context.tolerances.factorizationPivot = some singles
    ∧ ∀ k ∈ singles.leftovers, ∃ v passed column, singles.ComesUp context k v passed column
      ∧ (passed.Vanishes column → v ∈ outcome.result.singular)

/-- Every list of variables without a repeated slack can be factorized. -/
theorem exists_factorize?_accounted [LawfulScalar F] [SymmetricZero F]
    (hcontext : context.SetsZeroApart) (hsize : form.nrRows = model.nrRows)
    (hnodup : (indices.filter fun v => v ≤ model.nrRows).Nodup)
    (hindices : ∀ v ∈ indices, 0 < v ∧ v < model.nrVariables) :
  ∃ outcome, form.factorize? context model indices = some outcome
    ∧ Accounted context model indices outcome
  := by
  have hpivot := hcontext.factorizationPivot
  obtain ⟨placed, hplaced⟩ := PlacedBasis.exists_of?_of_passesOverZero
    (hcontext.rowSelection.passesOverZero hpivot) hnodup hindices
  obtain ⟨outcome, houtcome, hresult, hfile, -⟩ := factorize?_of_placed hsize hplaced
  refine ⟨outcome, houtcome, ?_⟩
  constructor
  case inverted =>
    rw [hfile]
    apply PlacedBasis.inverted_of_of? hplaced
  case owners =>
    obtain ⟨rest, haccounted, hwaiting, -, hsingular, hpivots, -⟩ :=
      PlacedBasis.exists_accounted hnodup hindices hplaced
    have howners : placed.file.columns.map EtaColumn.owner
        = (rest.file.pivots ++ rest.deferredPivots).map Prod.snd := by
      rw [← hpivots]
      unfold EtaFile.pivots
      rw [List.map_map]
      rfl
    have hpositions := haccounted.pivots.map Prod.snd
    rw [map_snd_structuralRows, ← howners] at hpositions
    have hvariables := haccounted.structurals
    rw [hwaiting, List.nil_append] at hvariables
    rw [hfile, hresult, hsingular]
    apply (hpositions.append_right rest.singular).trans hvariables
  case dependent =>
    obtain ⟨start, singles, rest, last, _, hstart, hsingles, hrest, hlast, -, -, -, hsingular⟩ :=
      PlacedBasis.of?_spec hplaced
    obtain ⟨-, -, hlastSingular⟩ := Placement.pivots_of_commitDeferred? hlast
    refine ⟨start, singles, hstart, hsingles, ?_⟩
    intro k hk
    rw [hresult, hsingular, hlastSingular]
    apply Placement.singular_of_vanishes hpivot hrest hk

/-! ### Updates -/

/-- A column that is not zero in its pivot row is committed with either sign. -/
theorem exists_finishUpdate?_of_staged [SymmetricZero F] {column : EtaColumn F}
    (hstaged : form.file.staged = some column) (hpivot : (column.pivot == 0) = false)
    (flip : Bool) :
  ∃ finished, form.finishUpdate? flip = some finished ∧ finished.result = true
  := by
  have hinverse : ∃ inverse, (if flip then column.negate else column).invert? = some inverse := by
    apply EtaColumn.exists_invert?
    cases flip with
    | false => apply hpivot
    | true =>
        change (-column.pivot == 0) = false
        rw [SymmetricZero.neg_beq_zero, hpivot]
  obtain ⟨inverse, hinverse⟩ := hinverse
  rw [finishUpdate?_of_staged hstaged, hinverse]
  exact ⟨_, rfl, rfl⟩

/-- A pivot that is not refused is not zero, and its column is staged. -/
theorem beq_zero_of_prepareUpdate? [LawfulScalar F] (hpivot : 0 < context.tolerances.pivot)
    {row entering : ℕ} {column : DenseVector F} {pivot : F}
    {prepared : Outcome (ProductForm F) (Except Error F)}
    (h : form.prepareUpdate? context row entering column = some prepared)
    (hok : prepared.result = .ok pivot) :
  (pivot == 0) = false
    ∧ ∃ staged, prepared.state.file.staged = some staged ∧ staged.pivot = pivot
  := by
  obtain ⟨-, staged, -, hcases⟩ := prepareUpdate?_spec h
  rcases hcases with ⟨-, ⟨value, hresult⟩, -⟩ | ⟨hlarge, hresult, hstate⟩
  · rw [hok] at hresult
    cases hresult
  · rw [hok] at hresult
    cases hresult
    refine ⟨LawfulScalar.beq_zero_eq_false hpivot hlarge, staged, ?_, rfl⟩
    rw [hstate]
    apply EtaFile.staged_stage

/-- The forms that operations lead to, with contexts that set zero apart. -/
inductive SafelyReached : ProductForm F → Prop
  | identity (nrRows : ℕ) : SafelyReached (identity nrRows)
  | factorize {form : ProductForm F} {context : Context F} {model : Model F} {indices : List ℕ}
      {outcome : Outcome (ProductForm F) Factorization} :
      SafelyReached form → context.SetsZeroApart →
      form.factorize? context model indices = some outcome → SafelyReached outcome.state
  | prepareUpdate {form : ProductForm F} {context : Context F} {row entering : ℕ}
      {column : DenseVector F} {prepared : Outcome (ProductForm F) (Except Error F)} :
      SafelyReached form → context.SetsZeroApart →
      form.prepareUpdate? context row entering column = some prepared →
      SafelyReached prepared.state
  | finishUpdate {form : ProductForm F} {flip : Bool} {finished : Outcome (ProductForm F) Bool} :
      SafelyReached form → form.finishUpdate? flip = some finished → SafelyReached finished.state
  | mustRefactorize {form : ProductForm F} (context : Context F) (elapsed : ℕ) :
      SafelyReached form → SafelyReached (form.mustRefactorize context elapsed).2
  | forceRefactorization {form : ProductForm F} :
      SafelyReached form → SafelyReached { form with forced := true }

/-- All committed columns are inverses, and a staged one can be inverted. -/
structure Invertible (form : ProductForm F) : Prop where
  inverted : form.file.Inverted
  staged : ∀ column, form.file.staged = some column → (column.pivot == 0) = false

theorem Invertible.prepareUpdate? [LawfulScalar F] (h : form.Invertible)
    (hcontext : context.SetsZeroApart) {row entering : ℕ} {column : DenseVector F}
    {prepared : Outcome (ProductForm F) (Except Error F)}
    (hprepared : form.prepareUpdate? context row entering column = some prepared) :
  prepared.state.Invertible
  := by
  obtain ⟨-, staged, -, hcases⟩ := prepareUpdate?_spec hprepared
  rcases hcases with ⟨-, -, hstate⟩ | ⟨hlarge, -, hstate⟩
  · rw [hstate]
    constructor
    case inverted =>
      intro other hother
      rw [EtaFile.columns_discardStaged] at hother
      apply h.inverted other hother
    case staged =>
      intro other hother
      rw [EtaFile.staged_discardStaged] at hother
      cases hother
  · rw [hstate]
    constructor
    case inverted =>
      intro other hother
      rw [EtaFile.columns_stage] at hother
      apply h.inverted other hother
    case staged =>
      intro other hother
      rw [EtaFile.staged_stage, Option.some_inj] at hother
      rw [← hother]
      apply LawfulScalar.beq_zero_eq_false hcontext.pivot hlarge

theorem Invertible.finishUpdate? (h : form.Invertible) {flip : Bool}
    {finished : Outcome (ProductForm F) Bool} (hfinished : form.finishUpdate? flip = some finished) :
  finished.state.Invertible
  := by
  rcases finishUpdate?_spec hfinished with ⟨-, -, hstate⟩ | ⟨column, inverse, -, hinverse, -, hstate⟩
  · rw [hstate]
    apply h
  · rw [hstate]
    constructor
    case inverted => apply h.inverted.append hinverse
    case staged =>
      intro other hother
      rw [extended, EtaFile.staged_append] at hother
      cases hother

/-- No operation stages a zero pivot. -/
theorem SafelyReached.invertible [LawfulScalar F] (h : form.SafelyReached) :
  form.Invertible
  := by
  induction h with
  | identity nrRows =>
      refine ⟨EtaFile.inverted_empty, ?_⟩
      intro column hcolumn
      cases hcolumn
  | factorize _ _ houtcome _ =>
      obtain ⟨-, placed, hplaced, -, hstate⟩ := factorize?_spec houtcome
      obtain ⟨-, hstaged, -⟩ := PlacedBasis.fits_of_of? hplaced
      rw [hstate]
      refine ⟨PlacedBasis.inverted_of_of? hplaced, ?_⟩
      intro column hcolumn
      rw [hstaged] at hcolumn
      cases hcolumn
  | prepareUpdate _ hcontext hprepared ih => apply ih.prepareUpdate? hcontext hprepared
  | finishUpdate _ hfinished ih => apply ih.finishUpdate? hfinished
  | mustRefactorize context elapsed _ ih =>
      obtain ⟨clock, hclock⟩ := mustRefactorize_snd context elapsed _
      rw [hclock]
      exact ⟨ih.inverted, ih.staged⟩
  | forceRefactorization _ ih => exact ⟨ih.inverted, ih.staged⟩

/-- No division by a zero pivot.

With a context that sets zero apart, a prepared pivot is not zero, and its column is committed with
either sign.  Every list of variables without a repeated slack can be factorized, with nonzero
pivots only.  And after any sequence of such operations an update can be finished, whether a column
is staged or not, and all columns are inverses. -/
theorem pivots_ne_zero [LawfulScalar F] [SymmetricZero F] (hcontext : context.SetsZeroApart) :
  (∀ (form : ProductForm F) (row entering : ℕ) (column : DenseVector F) (pivot : F)
      (prepared : Outcome (ProductForm F) (Except Error F)),
    form.prepareUpdate? context row entering column = some prepared →
      prepared.result = .ok pivot → (pivot == 0) = false
        ∧ ∀ flip, ∃ finished, prepared.state.finishUpdate? flip = some finished
          ∧ finished.result = true)
    ∧ (∀ (form : ProductForm F) (model : Model F) (indices : List ℕ), form.nrRows = model.nrRows →
      (indices.filter fun v => v ≤ model.nrRows).Nodup →
      (∀ v ∈ indices, 0 < v ∧ v < model.nrVariables) →
        ∃ outcome, form.factorize? context model indices = some outcome
          ∧ Accounted context model indices outcome)
    ∧ ∀ form : ProductForm F, form.SafelyReached → form.file.Inverted
      ∧ ∀ flip, ∃ finished, form.finishUpdate? flip = some finished
  := by
  refine ⟨?_, ?_, ?_⟩
  · intro form row entering column pivot prepared hprepared hok
    obtain ⟨hpivot, staged, hstaged, rfl⟩ :=
      beq_zero_of_prepareUpdate? hcontext.pivot hprepared hok
    exact ⟨hpivot, exists_finishUpdate?_of_staged hstaged hpivot⟩
  · intro form model indices hsize hnodup hindices
    apply exists_factorize?_accounted hcontext hsize hnodup hindices
  · intro form hreached
    have hinvertible := hreached.invertible
    refine ⟨hinvertible.inverted, ?_⟩
    intro flip
    cases hstaged : form.file.staged with
    | none => exact ⟨_, finishUpdate?_of_staged_eq_none hstaged flip⟩
    | some column =>
        obtain ⟨finished, hfinished, -⟩ :=
          exists_finishUpdate?_of_staged hstaged (hinvertible.staged column hstaged) flip
        exact ⟨finished, hfinished⟩

/-- Of three dependent columns of doubles, one of them listed twice, two get rows, and a column with
a pivot of two is committed with either sign.  Of an exact column that is listed twice one gets a
row, by the rule of the sparsest row. -/
theorem pivots_ne_zero_dependent :
  Context.doubles.SetsZeroApart
    ∧ (∃ outcome, factorize? Context.doubles Model.dependent [4, 5, 6, 5] (identity 3) = some outcome
      ∧ outcome.result.positions = [0, 4, 5, 3] ∧ outcome.result.singular = [5, 6]
      ∧ Accounted Context.doubles Model.dependent [4, 5, 6, 5] outcome)
    ∧ (∃ prepared pivot,
      (identity 3).prepareUpdate? Context.doubles 2 4 [0, 0, 2, 1] = some prepared
      ∧ prepared.result = .ok pivot ∧ (pivot == 0) = false
      ∧ (∀ flip, ∃ finished, prepared.state.finishUpdate? flip = some finished
        ∧ finished.result = true)
      ∧ prepared.state.SafelyReached ∧ prepared.state.file.Inverted)
    ∧ Context.sample.SetsZeroApart
      ∧ ∃ outcome, factorize? Context.sample Model.sample [3, 3] (identity 2) = some outcome
        ∧ Accounted Context.sample Model.sample [3, 3] outcome
  := by
  have hcontext : Context.doubles.SetsZeroApart :=
    ⟨by decide +kernel, by decide +kernel, trivial⟩
  obtain ⟨hprepare, hfactorize, hfinish⟩ := pivots_ne_zero hcontext
  obtain ⟨outcome, houtcome, haccounted⟩ := hfactorize (identity 3) Model.dependent [4, 5, 6, 5]
    rfl (by decide) (by decide)
  have hresult : ((factorize? Context.doubles Model.dependent [4, 5, 6, 5] (identity 3)).bind
      fun outcome => some (outcome.result.positions, outcome.result.singular))
        = some ([0, 4, 5, 3], [5, 6]) := by
    decide +kernel
  rw [houtcome, Option.bind_some, Option.some_inj, Prod.mk_inj] at hresult
  have hprepared : (((identity 3).prepareUpdate? Context.doubles 2 4 [0, 0, 2, 1]).map
      fun prepared => prepared.result.toOption.isSome) = some true := by
    decide +kernel
  obtain ⟨prepared, hprepared, hsome⟩ := Option.map_eq_some_iff.mp hprepared
  obtain ⟨pivot, hpivot⟩ := Option.isSome_iff_exists.mp hsome
  have hok := eq_ok_of_toOption hpivot
  obtain ⟨hpivot, hcommit⟩ := hprepare _ _ _ _ pivot prepared hprepared hok
  have hreached := SafelyReached.prepareUpdate (.identity 3) hcontext hprepared
  have hexact : Context.sample.SetsZeroApart := by
    apply Context.setsZeroApart_of_positive _ Context.sample_exact.factorizationPivot
      Context.sample_exact.rowSelection
    change (0 : ℚ) < 1 / 10 ^ 9
    norm_num
  refine ⟨hcontext, ⟨outcome, houtcome, hresult.1, hresult.2, haccounted⟩, ⟨prepared, pivot,
    hprepared, hok, hpivot, hcommit, hreached, (hfinish _ hreached).1⟩, hexact, ?_⟩
  apply (pivots_ne_zero hexact).2.1 (identity 2) Model.sample [3, 3] rfl (by decide) (by decide)

end ProductForm

/-! ### Accepted settings -/

/-- Settings by which every magnitude is enough in a factorization. -/
def Settings.anyFactor : Settings where
  tolerances := { factorizationPivot := 0 }

/-- Settings by which every magnitude is enough in an update. -/
def Settings.anyUpdate : Settings where
  tolerances := { pivotEpsilonScale := 0 }

/-- Settings with a threshold that is zero in single precision. -/
def Settings.anyRow : Settings where
  rowSelection := .markowitz 1e-50

/-- Two independent columns of single precision numbers that leave a row empty. -/
def Model.bare : Model Float32 where
  matrix := ⟨[[(0, 1), (1, 1)], [(0, 1), (1, 2)]], 3, by decide +kernel⟩
  cost := [0, 0]
  rightHandSide := [1, 1, 1]
  relations := [.less, .less, .equal]
  goal := .minimize
  bounds := List.replicate 5 (.atLeast 0)
  cost_length := rfl
  rightHandSide_length := rfl
  relations_length := rfl
  bounds_length := rfl

namespace ProductForm

/-- Accepted settings let a zero pass: as the pivot of a dependent column when the tolerance of a
factorization is zero, as the pivot of an update when that of updates is, and as the pivot of
independent columns when the threshold of the sparsest row vanishes.  Then the commit fails. -/
theorem zero_pivot_of_accepted :
  (∃ context : Context Float, Context.ofSettings .anyFactor = .ok context
      ∧ factorize? context Model.dependent [4, 5, 6] (identity 3) = none)
    ∧ (∃ (context : Context Float) (prepared : Outcome (ProductForm Float) (Except Error Float))
        (pivot : Float), Context.ofSettings .anyUpdate = .ok context
      ∧ (identity 3).prepareUpdate? context 2 4 [0, 0, 0, 0] = some prepared
      ∧ prepared.result = .ok pivot ∧ (pivot == 0) = true
      ∧ prepared.state.finishUpdate? false = none)
    ∧ ∃ context : Context Float32, Context.ofSettings .anyRow = .ok context
      ∧ 0 < context.tolerances.factorizationPivot
      ∧ factorize? context Model.bare [4, 5] (identity 3) = none
  := by
  refine ⟨⟨.convert .anyFactor, Context.ofSettings_eq_convert (by decide +kernel), ?_⟩, ?_,
    ⟨.convert .anyRow, Context.ofSettings_eq_convert (by decide +kernel), by decide +kernel, ?_⟩⟩
  · apply Option.isNone_iff_eq_none.mp
    decide +kernel
  · have hprepared : (((identity 3).prepareUpdate? (.convert .anyUpdate) 2 4 [0, 0, 0, 0]).map
        fun prepared => (prepared.result.toOption.map fun pivot : Float => pivot == 0,
          (prepared.state.finishUpdate? false).isNone)) = some (some true, true) := by
      decide +kernel
    obtain ⟨prepared, hprepared, hresult⟩ := Option.map_eq_some_iff.mp hprepared
    obtain ⟨hpivot, hfinish⟩ := Prod.mk_inj.mp hresult
    obtain ⟨pivot, hok, hzero⟩ := Option.map_eq_some_iff.mp hpivot
    exact ⟨.convert .anyUpdate, prepared, pivot,
      Context.ofSettings_eq_convert (by decide +kernel), hprepared, eq_ok_of_toOption hok, hzero,
      Option.isNone_iff_eq_none.mp hfinish⟩
  · apply Option.isNone_iff_eq_none.mp
    decide +kernel

end ProductForm

end RevisedSimplex
