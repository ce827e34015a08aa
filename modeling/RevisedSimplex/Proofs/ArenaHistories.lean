import RevisedSimplex.Proofs.InverseForm

/-!
# Histories of an arena

The arenas that are `Reached` from the empty one by staging, committing and discarding have the
layout that reading them relies on: behind the committed columns there is a staged one or nothing,
the columns end one after the other, and each has distinct rows with the pivot row last.

Staging writes behind the committed columns only.  `Quiet` runs stage and discard but commit
nothing, and end with an arena from which the same is read, and which takes the next staged column
just as the first one does.  A product form that refuses an update is therefore left with nothing
to commit, and solves as it did before.
-/

namespace RevisedSimplex

variable {F : Type}

/-! ### Rows of a column -/

namespace EtaColumn

/-- The rows of the column are distinct. -/
def Distinct (column : EtaColumn F) : Prop :=
  (column.stored.map Prod.fst).Nodup

theorem distinct_iff {column : EtaColumn F} :
  column.Distinct ↔ column.offPivot.positions.Nodup
    ∧ column.pivotRow ∉ column.offPivot.positions
  := by
  unfold Distinct stored
  rw [List.map_append, List.map_singleton, List.nodup_append_comm, List.singleton_append,
    List.nodup_cons, and_comm]
  rfl

variable [Scalar F] {column inverse : EtaColumn F} {row owner : ℕ}

theorem distinct_of_ofDense? {dense : DenseVector F} (h : ofDense? dense row owner = some column) :
  column.Distinct
  := by
  unfold ofDense? at h
  obtain ⟨pivot, -, h⟩ := Option.bind_eq_some_iff.mp h
  cases h
  rw [distinct_iff]
  constructor
  · apply List.Nodup.sublist _ (SparseVector.ordered_nonzeros dense).nodup
    apply List.filter_sublist.map
  · intro hmem
    obtain ⟨entry, hentry, hrow⟩ := List.mem_map.mp hmem
    have hne := (List.mem_filter.mp hentry).2
    simp [hrow] at hne

theorem distinct_of_ofSparse? {sparse : SparseVector F}
    (h : ofSparse? sparse row owner = some column) :
  column.Distinct
  := by
  have hspec := ofSparse?_spec h
  unfold ofSparse? at h
  split at h
  · rename_i hordered
    cases h
    rw [distinct_iff]
    constructor
    · apply List.Nodup.sublist _ hordered.nodup
      apply List.filter_sublist.map
    · intro hmem
      obtain ⟨entry, hentry, hrow⟩ := List.mem_map.mp hmem
      apply (hspec.2.2.2 entry hentry).2 hrow
  · cases h

/-- What is committed has the rows of what was staged. -/
theorem Distinct.committed (h : column.Distinct) {flip : Bool}
    (hinverse : (if flip then column.negate else column).invert? = some inverse) :
  inverse.Distinct ∧ inverse.pivotRow = column.pivotRow ∧ inverse.owner = column.owner
  := by
  obtain ⟨howner, hrows⟩ := storedRows_of_invert? hinverse
  obtain ⟨hsignedOwner, hsignedRows⟩ := column.storedRows_of_sign flip
  rw [hsignedRows] at hrows
  rw [hsignedOwner] at howner
  refine ⟨?_, ?_, howner⟩
  · unfold Distinct
    rw [hrows]
    apply h
  · have hlast := congrArg List.getLast? hrows
    unfold stored at hlast
    rw [List.map_append, List.map_append, List.map_singleton, List.map_singleton,
      List.getLast?_concat, List.getLast?_concat] at hlast
    apply Option.some_inj.mp hlast

end EtaColumn

namespace EtaArena

variable {arena later : EtaArena F} {k : ℕ}

/-! ### Layout -/

/-- An arena that can be read, with distinct rows in every column, the staged one included, and no
more columns counted to the factorization than there are. -/
structure Tidy (arena : EtaArena F) : Prop extends arena.Sound where
  columns : ∀ column ∈ arena.columns, column.Distinct
  staged : ∀ column, arena.staged = some column → column.Distinct
  counted : arena.factorColumns ≤ arena.nrColumns

theorem tidy_empty :
  ({} : EtaArena F).Tidy
  where
  toSound := sound_empty
  columns _ h := by cases h
  staged _ h := by cases h
  counted := Nat.zero_le _

theorem Tidy.discardStaged (h : arena.Tidy) :
  arena.discardStaged.Tidy
  where
  toSound := h.toSound.discardStaged
  columns := by
    rw [(sameCommitted_discardStaged arena).columns_eq h.toSound]
    apply h.columns
  staged column hcolumn := by
    rw [staged_eq_none rfl] at hcolumn
    cases hcolumn
  counted := h.counted

theorem Tidy.stage (h : arena.Tidy) {column : EtaColumn F} (hcolumn : column.Distinct) :
  (arena.stage column).Tidy
  where
  toSound := h.toSound.stage column
  columns := by
    rw [(h.sameCommitted_stage column).columns_eq h.toSound]
    apply h.columns
  staged other hother := by
    rw [h.staged_stage, Option.some_inj] at hother
    rw [← hother]
    apply hcolumn
  counted := h.counted

theorem Tidy.append (h : arena.Tidy) {column : EtaColumn F} (hcolumn : column.Distinct) :
  (arena.append column).Tidy
  where
  toSound := h.toSound.append column
  columns other hother := by
    rw [h.columns_append] at hother
    rcases List.mem_append.mp hother with hold | hnew
    · apply h.columns other hold
    · rw [List.mem_singleton.mp hnew]
      apply hcolumn
  staged other hother := by
    rw [staged_eq_none rfl] at hother
    cases hother
  counted := by
    change arena.factorColumns ≤ (arena.columnEnds ++ [_]).length
    rw [List.length_append]
    apply Nat.le_add_right_of_le h.counted

theorem Tidy.commit? [Scalar F] (h : arena.Tidy) {flip done : Bool}
    (hcommit : arena.commit? flip = some (done, later)) :
  later.Tidy
  := by
  rw [h.commit?_eq] at hcommit
  split at hcommit
  · cases hcommit
    apply h
  · rename_i column hstaged
    obtain ⟨inverse, hinverse, hpair⟩ := Option.map_eq_some_iff.mp hcommit
    cases hpair
    apply h.append ((h.staged column hstaged).committed hinverse).1

theorem Tidy.markFactorEnd? (h : arena.Tidy) (hmark : arena.markFactorEnd? = some later) :
  later.Tidy
  := by
  obtain ⟨-, rfl⟩ := markFactorEnd?_eq_some hmark
  exact ⟨h.setFactorColumns _, h.columns, h.staged, Nat.le_refl _⟩

/-- The layout of an arena.  The rows of a column are those between its ends, its pivot row is the
last of them, and without a staged column nothing follows the last column. -/
structure Layout (arena : EtaArena F) : Prop where
  length_values : arena.values.length = arena.rows.length
  increasing : arena.columnEnds.Pairwise (· < ·)
  length_owners : arena.owners.length = arena.columnEnds.length
  rows : ∀ k < arena.nrColumns, ∃ start stop others row owner,
    arena.range? k = some (start, stop) ∧ start < stop ∧ stop ≤ arena.committedEnd
      ∧ (arena.rows.take stop).drop start = others ++ [row] ∧ (others ++ [row]).Nodup
      ∧ arena.pivot? k = some (row, owner)
  counted : arena.factorColumns ≤ arena.nrColumns
  unstaged : arena.isStaged = false → arena.rows.length = arena.committedEnd

theorem Tidy.layout (h : arena.Tidy) :
  arena.Layout
  where
  length_values := h.length_values
  increasing := (List.pairwise_cons.mp h.increasing).2
  length_owners := h.length_owners
  rows k hk := by
    obtain ⟨column, hcolumn⟩ := h.exists_column? hk
    obtain ⟨start, stop, hrange, hlt, hle, hrows⟩ := h.rows_of_column? hcolumn
    have hmem : column ∈ arena.columns :=
      List.mem_filterMap.mpr ⟨k, List.mem_range.mpr hk, hcolumn⟩
    have hdistinct := h.columns column hmem
    unfold EtaColumn.Distinct EtaColumn.stored at hdistinct
    rw [List.map_append, List.map_singleton] at hdistinct
    exact ⟨start, stop, _, _, column.owner, hrange, hlt, hle, hrows, hdistinct,
      h.pivot?_eq hcolumn⟩
  counted := h.counted
  unstaged hstaged := by
    apply Nat.le_antisymm _ h.committedEnd_le
    rw [← Nat.not_lt, ← h.staged_iff]
    change ¬ arena.isStaged = true
    rw [hstaged]
    apply Bool.false_ne_true

/-! ### Runs that commit nothing -/

/-- An arena is known by what it is without its staged column, up to that column. -/
theorem sameCommitted_of_discardStaged_eq (h : later.discardStaged = arena.discardStaged) :
  SameCommitted arena later
  := by
  have hends : later.columnEnds = arena.columnEnds := congrArg (fun a => a.columnEnds) h
  have hend : later.committedEnd = arena.committedEnd := by
    unfold committedEnd
    rw [hends]
  constructor
  case columnEnds => apply hends
  case owners => exact congrArg (fun a => a.owners) h
  case factorColumns => exact congrArg (fun a => a.factorColumns) h
  case rows =>
    have hrows : later.rows.take later.committedEnd = arena.rows.take arena.committedEnd :=
      congrArg (fun a => a.rows) h
    rw [hend] at hrows
    apply hrows
  case values =>
    have hvalues : later.values.take later.committedEnd = arena.values.take arena.committedEnd :=
      congrArg (fun a => a.values) h
    rw [hend] at hvalues
    apply hvalues

variable [Scalar F]

/-- The arenas that come from the empty one by staging, discarding and committing columns and by
marking the end of a factorization. -/
inductive Reached : EtaArena F → Prop
  | empty : Reached {}
  | stageDense {arena : EtaArena F} {dense : DenseVector F} {row owner : ℕ}
      {column : EtaColumn F} :
      Reached arena → EtaColumn.ofDense? dense row owner = some column →
      Reached (arena.stage column)
  | stageSparse {arena : EtaArena F} {sparse : SparseVector F} {row owner : ℕ}
      {column : EtaColumn F} :
      Reached arena → EtaColumn.ofSparse? sparse row owner = some column →
      Reached (arena.stage column)
  | discardStaged {arena : EtaArena F} : Reached arena → Reached arena.discardStaged
  | commit {arena committed : EtaArena F} {flip done : Bool} :
      Reached arena → arena.commit? flip = some (done, committed) → Reached committed
  | markFactorEnd {arena marked : EtaArena F} :
      Reached arena → arena.markFactorEnd? = some marked → Reached marked

/-- Every reached arena is tidy. -/
theorem Reached.tidy (h : arena.Reached) :
  arena.Tidy
  := by
  induction h with
  | empty => apply tidy_empty
  | stageDense _ hcolumn ih => apply ih.stage (EtaColumn.distinct_of_ofDense? hcolumn)
  | stageSparse _ hcolumn ih => apply ih.stage (EtaColumn.distinct_of_ofSparse? hcolumn)
  | discardStaged _ ih => apply ih.discardStaged
  | commit _ hcommit ih => apply ih.commit? hcommit
  | markFactorEnd _ hmark ih => apply ih.markFactorEnd? hmark

/-- The arenas that come from a given one by staging and discarding columns, and by commits that
find no staged column. -/
inductive Quiet (arena : EtaArena F) : EtaArena F → Prop
  | refl : Quiet arena arena
  | stageDense {later : EtaArena F} {dense : DenseVector F} {row owner : ℕ}
      {column : EtaColumn F} :
      Quiet arena later → EtaColumn.ofDense? dense row owner = some column →
      Quiet arena (later.stage column)
  | stageSparse {later : EtaArena F} {sparse : SparseVector F} {row owner : ℕ}
      {column : EtaColumn F} :
      Quiet arena later → EtaColumn.ofSparse? sparse row owner = some column →
      Quiet arena (later.stage column)
  | discardStaged {later : EtaArena F} : Quiet arena later → Quiet arena later.discardStaged
  | commit {later committed : EtaArena F} {flip done : Bool} :
      Quiet arena later → later.isStaged = false → later.commit? flip = some (done, committed) →
      Quiet arena committed

/-- A quiet run changes nothing but the staged column. -/
theorem Quiet.discardStaged_eq (h : Quiet arena later) (hsound : arena.Sound) :
  later.Sound ∧ later.discardStaged = arena.discardStaged
  := by
  induction h with
  | refl => exact ⟨hsound, rfl⟩
  | stageDense _ _ ih => exact ⟨ih.1.stage _, (ih.1.discardStaged_stage _).trans ih.2⟩
  | stageSparse _ _ ih => exact ⟨ih.1.stage _, (ih.1.discardStaged_stage _).trans ih.2⟩
  | discardStaged _ ih =>
      exact ⟨ih.1.discardStaged, (ih.1.discardStaged.discardStaged_eq_self rfl).trans ih.2⟩
  | commit _ hstaged hcommit ih =>
      have hnone := Option.not_isSome_iff_eq_none.mp (Bool.eq_false_iff.mp hstaged)
      rw [ih.1.commit?_eq, staged_eq_none hnone] at hcommit
      cases hcommit
      apply ih

/-- What is read from two arenas is the same. -/
structure ReadsAlike (arena later : EtaArena F) : Prop where
  applyRight? : later.applyRight? = arena.applyRight?
  applyLeft? : later.applyLeft? = arena.applyLeft?
  applyLeftDouble? : later.applyLeftDouble? = arena.applyLeftDouble?
  pivot? : later.pivot? = arena.pivot?
  nrUpdates : later.nrUpdates = arena.nrUpdates
  nrColumns : later.nrColumns = arena.nrColumns
  nrNonzeros : later.nrNonzeros = arena.nrNonzeros

omit [Scalar F] in
theorem SameCommitted.pivot?_eq (h : SameCommitted arena later) (hsound : arena.Sound)
    (hlater : later.Sound) :
  later.pivot? = arena.pivot?
  := by
  funext k
  rcases Nat.lt_or_ge k arena.nrColumns with hk | hk
  · obtain ⟨column, hcolumn⟩ := hsound.exists_column? hk
    have hsame : later.column? k = some column := by
      rw [h.column?_eq hsound, hcolumn]
    rw [hsound.pivot?_eq hcolumn, hlater.pivot?_eq hsame]
  · unfold EtaArena.pivot?
    rw [h.range?, range?_eq_none hk]
    rfl

/-- Nothing is read but the committed columns. -/
theorem SameCommitted.readsAlike (h : SameCommitted arena later) (hsound : arena.Sound)
    (hlater : later.Sound) :
  ReadsAlike arena later
  where
  applyRight? := by
    funext vector
    unfold EtaArena.applyRight?
    rw [h.nrColumns, h.column?_eq hsound]
  applyLeft? := by
    funext vector
    unfold EtaArena.applyLeft?
    rw [h.nrColumns, h.column?_eq hsound]
  applyLeftDouble? := by
    funext first second
    unfold EtaArena.applyLeftDouble?
    rw [h.nrColumns, h.column?_eq hsound]
  pivot? := h.pivot?_eq hsound hlater
  nrUpdates := by
    unfold EtaArena.nrUpdates
    rw [h.nrColumns, h.factorColumns]
  nrColumns := h.nrColumns
  nrNonzeros := h.committedEnd

/-- A quiet run leaves what is read, and the next staged column replaces all that it staged. -/
theorem Quiet.spec (h : Quiet arena later) (hsound : arena.Sound) :
  ReadsAlike arena later ∧ ∀ column, later.stage column = arena.stage column
  := by
  obtain ⟨hlater, hsame⟩ := h.discardStaged_eq hsound
  constructor
  · apply (sameCommitted_of_discardStaged_eq hsame).readsAlike hsound hlater
  · apply stage_congr hsame

/-- A staged column is committed with the pivot row and the variable it was staged with, behind the
columns that were there. -/
theorem Tidy.commit?_stage (h : arena.Tidy) {column : EtaColumn F} (hcolumn : column.Distinct)
    {flip done : Bool} (hcommit : (arena.stage column).commit? flip = some (done, later)) :
  done = true ∧ later.nrColumns = arena.nrColumns + 1
    ∧ later.pivot? arena.nrColumns = some (column.pivotRow, column.owner)
    ∧ ∀ k < arena.nrColumns, later.pivot? k = arena.pivot? k
  := by
  rw [(h.toSound.stage column).commit?_eq, h.staged_stage] at hcommit
  obtain ⟨inverse, hinverse, hpair⟩ := Option.map_eq_some_iff.mp hcommit
  rw [h.append_stage] at hpair
  cases hpair
  obtain ⟨-, hrow, howner⟩ := hcolumn.committed hinverse
  refine ⟨rfl, ?_, ?_, ?_⟩
  · change (arena.columnEnds ++ [_]).length = _
    rw [List.length_append]
    rfl
  · rw [(h.toSound.append inverse).pivot?_eq (h.column?_append_self inverse), hrow, howner]
  · intro k hk
    obtain ⟨other, hother⟩ := h.exists_column? hk
    have hlater := h.column?_append_of_lt inverse hk
    rw [hother] at hlater
    rw [h.pivot?_eq hother, (h.toSound.append inverse).pivot?_eq hlater]

end EtaArena

namespace ProductForm

variable [Scalar F] {form : ProductForm F} {context : Context F}

/-- A refused update leaves the committed columns, and no staged one. -/
theorem prepareUpdate?_of_error {row entering : ℕ} {column : DenseVector F}
    {prepared : Outcome (ProductForm F) (Except Error F)} {e : Error}
    (h : form.prepareUpdate? context row entering column = some prepared)
    (herror : prepared.result = .error e) :
  prepared.state.nrRows = form.nrRows ∧ prepared.state.file.staged = none
    ∧ EtaArena.ReadsAlike form.file.toEtaArena prepared.state.file.toEtaArena
  := by
  obtain ⟨-, staged, -, ⟨-, -, hstate⟩ | ⟨-, hok, -⟩⟩ := prepareUpdate?_spec h
  · rw [hstate]
    refine ⟨rfl, form.file.staged_discardStaged, ?_⟩
    apply (EtaArena.sameCommitted_discardStaged _).readsAlike form.file.sound
    apply form.file.sound.discardStaged
  · rw [hok] at herror
    cases herror

/-- What the other form solves is the same. -/
structure SolvesAlike (form other : ProductForm F) : Prop where
  ftran? : ∀ context, other.ftran? context = form.ftran? context
  btran? : ∀ context, other.btran? context = form.btran? context
  btranDouble? : ∀ context, other.btranDouble? context = form.btranDouble? context

/-- A form solves with what it reads from its file. -/
theorem solvesAlike_of_readsAlike {other : ProductForm F} (hsize : other.nrRows = form.nrRows)
    (h : EtaArena.ReadsAlike form.file.toEtaArena other.file.toEtaArena) :
  form.SolvesAlike other
  where
  ftran? context := by
    funext vector
    unfold ProductForm.ftran?
    rw [hsize, h.applyRight?]
  btran? context := by
    funext vector
    unfold ProductForm.btran?
    rw [hsize, h.applyLeft?]
  btranDouble? context := by
    funext first second
    unfold ProductForm.btranDouble?
    rw [hsize, h.applyLeftDouble?]

end ProductForm

/-! ### Staging -/

variable [Scalar F]

/-- Staging leaves the committed columns alone.

Every reached arena has its layout, and whatever is staged and discarded changes nothing that is
read from it.  A column that is staged in the place of others is committed as if they had never
been there, and then it comes behind the committed ones, with the pivot row and the variable that
it was staged with.  Hence a product form that refused an update has nothing to commit, and solves
as before. -/
theorem EtaArena.Reached.staging_keeps_columns {arena : EtaArena F} (h : arena.Reached) :
  arena.Layout
    ∧ (∀ later, Quiet arena later → ReadsAlike arena later
      ∧ ∀ (column : EtaColumn F) (flip : Bool),
        (later.stage column).commit? flip = (arena.stage column).commit? flip)
    ∧ (∀ (column : EtaColumn F) (row owner : ℕ),
      (∃ dense, EtaColumn.ofDense? dense row owner = some column)
        ∨ (∃ sparse, EtaColumn.ofSparse? sparse row owner = some column) →
      ∀ flip done committed, (arena.stage column).commit? flip = some (done, committed) →
        done = true ∧ committed.nrColumns = arena.nrColumns + 1
          ∧ committed.pivot? arena.nrColumns = some (row, owner)
          ∧ ∀ k < arena.nrColumns, committed.pivot? k = arena.pivot? k)
    ∧ ∀ (form : ProductForm F) (context : Context F) (row entering : ℕ) (column : DenseVector F)
        (prepared : Outcome (ProductForm F) (Except Error F)) (e : Error),
      form.prepareUpdate? context row entering column = some prepared →
      prepared.result = .error e →
        (∀ flip, prepared.state.finishUpdate? flip
          = some { result := false, state := prepared.state })
          ∧ form.SolvesAlike prepared.state
  := by
  have htidy := h.tidy
  refine ⟨htidy.layout, ?_, ?_, ?_⟩
  · intro later hquiet
    obtain ⟨hreads, hstage⟩ := hquiet.spec htidy.toSound
    use hreads
    intro column flip
    rw [hstage]
  · rintro column row owner (⟨dense, hdense⟩ | ⟨sparse, hsparse⟩) flip done committed hcommit
    · obtain ⟨-, hrow, howner, -⟩ := EtaColumn.ofDense?_spec hdense
      rw [← hrow, ← howner]
      apply htidy.commit?_stage (EtaColumn.distinct_of_ofDense? hdense) hcommit
    · obtain ⟨hrow, howner, -⟩ := EtaColumn.ofSparse?_spec hsparse
      rw [← hrow, ← howner]
      apply htidy.commit?_stage (EtaColumn.distinct_of_ofSparse? hsparse) hcommit
  · intro form context row entering column prepared e hprepared herror
    obtain ⟨hsize, hstaged, hreads⟩ := ProductForm.prepareUpdate?_of_error hprepared herror
    constructor
    · apply ProductForm.finishUpdate?_of_staged_eq_none hstaged
    · apply ProductForm.solvesAlike_of_readsAlike hsize hreads

/-- A column is staged behind a committed one and discarded, and the form with the staged column
refuses a column of zeros. -/
theorem EtaArena.Reached.staging_keeps_columns_sample :
  ∃ (arena later : EtaArena ℚ) (form : ProductForm ℚ)
      (prepared : Outcome (ProductForm ℚ) (Except Error ℚ)) (e : Error),
    arena.Reached ∧ arena.nrColumns = 1 ∧ arena.isStaged = true ∧ arena.rows = [1, 0, 0, 1]
      ∧ Quiet arena later ∧ later.isStaged = false ∧ later.rows = [1, 0]
      ∧ arena.Layout ∧ ReadsAlike arena later
      ∧ form.file.toEtaArena = arena
      ∧ form.prepareUpdate? Context.sample 1 5 [0, 0] = some prepared
      ∧ prepared.result = .error e
      ∧ prepared.state.finishUpdate? false = some { result := false, state := prepared.state }
      ∧ form.SolvesAlike prepared.state
  := by
  have hcommitted : ((EtaColumn.ofSparse? [(0, 2), (1, 1)] 0 7).bind fun column : EtaColumn ℚ =>
      ((EtaArena.stage {} column).commit? false).map fun answer =>
        (answer.2.columnEnds, answer.2.rows)) = some ([2], [1, 0]) := by
    decide +kernel
  obtain ⟨first, hfirst, hcommitted⟩ := Option.bind_eq_some_iff.mp hcommitted
  obtain ⟨⟨done, committed⟩, hcommit, hpair⟩ := Option.map_eq_some_iff.mp hcommitted
  obtain ⟨hends, hrows⟩ := Prod.mk_inj.mp hpair
  dsimp only at hends hrows
  have hreached : committed.Reached := .commit (.stageSparse .empty hfirst) hcommit
  have hsecond : (EtaColumn.ofDense? [1, 4] 1 8).map (fun column : EtaColumn ℚ =>
      column.stored.map Prod.fst) = some [0, 1] := by
    decide +kernel
  obtain ⟨second, hdense, hstored⟩ := Option.map_eq_some_iff.mp hsecond
  have harena : (committed.stage second).Reached := .stageDense hreached hdense
  have hquiet : Quiet (committed.stage second) (committed.stage second).discardStaged :=
    .discardStaged .refl
  have hend : committed.committedEnd = 2 := by
    unfold committedEnd
    rw [hends]
    rfl
  have hall : (committed.stage second).rows = [1, 0, 0, 1] := by
    change committed.rows.take committed.committedEnd ++ _ = _
    rw [hend, hrows, hstored]
    rfl
  obtain ⟨hlayout, hruns, -, hforms⟩ := Reached.staging_keeps_columns harena
  let form : ProductForm ℚ := { nrRows := 1, file := ⟨committed.stage second, harena.tidy.toSound⟩ }
  have hzero : EtaColumn.ofDense? ([0, 0] : DenseVector ℚ) 1 5 = some ⟨1, 5, [], 0⟩ := by
    rfl
  have hsmall : Scalar.magnitude (0 : ℚ) < Context.sample.tolerances.pivot := by decide +kernel
  have hprepared : form.prepareUpdate? Context.sample 1 5 [0, 0] = some _ :=
    form.prepareUpdate?_of_lt Nat.one_ne_zero (Nat.le_refl 1) rfl hzero hsmall
  obtain ⟨hfinish, hsolves⟩ := hforms form _ _ _ _ _ _ hprepared rfl
  refine ⟨committed.stage second, (committed.stage second).discardStaged, form, _, _, harena,
    congrArg List.length hends, rfl, hall, hquiet, rfl, ?_, hlayout, (hruns _ hquiet).1, rfl,
    hprepared, rfl, hfinish false, hsolves⟩
  change (committed.stage second).rows.take committed.committedEnd = _
  rw [hall, hend]
  rfl

end RevisedSimplex
