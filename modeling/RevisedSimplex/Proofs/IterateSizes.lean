import RevisedSimplex.Pricing
import RevisedSimplex.Proofs.BasisPositions
import RevisedSimplex.Proofs.Entries

/-!
# Sizes of iterates

An iterate is `Sized` when its basis and its vectors have the size of the model.  All rows and
values of such an iterate can be read, and iterations keep the size.  An iteration is a bound flip,
an exchange, or nothing at all.  None of this asks anything of the numbers.
-/

namespace RevisedSimplex

variable {F : Type}

/-! ### Vectors -/

namespace DenseVector

variable {vector result : DenseVector F} {position : ℕ}

/-- Replacing an entry keeps the length. -/
theorem length_set? {value : F} (h : vector.set? position value = some result) :
  result.length = vector.length
  := by
  unfold set? at h
  split at h
  · cases h
    apply List.length_set
  · cases h

/-- Subtracting a multiple keeps the length. -/
theorem length_subtractMultiple? [Scalar F] {factor : F} {source : DenseVector F}
    (h : vector.subtractMultiple? factor source = some result) :
  result.length = vector.length
  := by
  unfold subtractMultiple? at h
  split at h
  · rename_i hlength
    split at h
    · cases h
      rfl
    · cases h
      rw [List.length_zipWith, hlength, min_self]
  · cases h

end DenseVector

variable [Scalar F] {model : Model F}

/-! ### Bounds -/

/-- Every variable has bounds. -/
theorem Model.exists_bounds? {v : ℕ} (h : v < model.nrVariables) :
  ∃ bounds, model.bounds? v = some bounds
  := by
  refine ⟨_, List.getElem?_eq_getElem ?_⟩
  have hlength := model.bounds_length
  unfold nrVariables nrRows nrColumns at h
  rw [List.length_cons, hlength]
  omega

/-- Nothing else has. -/
theorem Model.lt_of_bounds? {v : ℕ} {bounds : Bounds F} (h : model.bounds? v = some bounds) :
  v < model.nrVariables
  := by
  obtain ⟨hlt, -⟩ := List.getElem?_eq_some_iff.mp h
  rw [List.length_cons, model.bounds_length] at hlt
  unfold nrVariables nrRows nrColumns
  omega

namespace Iterate

variable {R : Type} [BasisFactorization R F] {context : Context F} {tolerances : Tolerances F}
  {factorization : R} {iterate after : Iterate F} {v position entering : ℕ} {theta range : F}

/-- The iterate has the size of the model. -/
structure Sized (model : Model F) (iterate : Iterate F) : Prop where
  nrRows : iterate.basis.nrRows = model.nrRows
  nrVariables : iterate.basis.nrVariables = model.nrVariables
  values : iterate.values.length = model.nrRows + 1
  pivotColumn : iterate.pivotColumn.length = model.nrRows + 1

/-- An iterate that starts from the slacks has the size of their model. -/
theorem sized_start (model : Model F) :
  (start (Basis.slack model) : Iterate F).Sized model
  where
  nrRows := Basis.nrRows_slack model
  nrVariables := Basis.nrVariables_slack model
  values := DenseVector.length_zero _
  pivotColumn := DenseVector.length_zero _

/-! ### Positions -/

/-- The basic variables are variables of the model, and none of them is the objective dummy. -/
theorem Sized.of_mem_basic (h : iterate.Sized model) (hv : v ∈ iterate.basis.basic) :
  0 < v ∧ v < model.nrVariables
  := by
  rw [← h.nrVariables]
  apply iterate.basis.basic_inRange hv

/-- Only positions of the model have variables. -/
theorem Sized.lt_of_variableAt? (h : iterate.Sized model) {i : ℕ}
    (hi : iterate.basis.variableAt? i = some v) :
  i < model.nrRows + 1
  := by
  rw [← h.nrRows]
  apply Basis.lt_of_variableAt? hi

/-- A variable of the model has a position, or it is nonbasic. -/
theorem Sized.position_or_nonbasic (h : iterate.Sized model) (hv : v < model.nrVariables) :
  (∃ i : Fin (model.nrRows + 1), iterate.basis.variableAt? i = some v)
    ∨ iterate.basis.isNonbasic v = true
  := by
  rw [← h.nrVariables] at hv
  rcases Basis.position_or_nonbasic hv with ⟨i, hi⟩ | hnonbasic
  · apply Or.inl ⟨⟨i, h.lt_of_variableAt? hi⟩, hi⟩
  · apply Or.inr hnonbasic

/-- Other positions do not change the sizes. -/
theorem Sized.applyPositions? (h : iterate.Sized model) {positions : List ℕ} {basis : Basis}
    (happly : iterate.basis.applyPositions? positions model = some basis) :
  Sized model { iterate with basis }
  := by
  obtain ⟨-, hnrRows, hnrVariables, -⟩ := Basis.applyPositions?_eq happly
  exact ⟨hnrRows.trans h.nrRows, hnrVariables.trans h.nrVariables, h.values, h.pivotColumn⟩

/-- Distinct variables of the model that begin with the objective dummy can take the positions. -/
theorem Sized.exists_applyPositions? (h : iterate.Sized model) {positions : List ℕ}
    (hfirst : positions[0]? = some 0) (hlength : positions.length = model.nrRows + 1)
    (hnodup : positions.Nodup) (hrange : ∀ v ∈ positions, v < model.nrVariables) :
  ∃ basis, iterate.basis.applyPositions? positions model = some basis
  := by
  rw [← h.nrRows] at hlength
  rw [← h.nrVariables] at hrange
  apply Basis.exists_applyPositions? hfirst hlength hnodup hrange
  intro v hv
  rw [h.nrVariables] at hv
  obtain ⟨bounds, hbounds⟩ := Model.exists_bounds? hv
  rw [hbounds]
  rfl

/-- Positions that have all basic variables are those of the basis in another order. -/
theorem Sized.perm_owners (h : iterate.Sized model) {positions : List ℕ}
    (hfirst : positions[0]? = some 0) (hlength : positions.length = model.nrRows + 1)
    (hbasic : ∀ v ∈ iterate.basis.basic, v ∈ positions) :
  iterate.basis.owners.Perm positions
  := by
  have hsubset : iterate.basis.owners ⊆ positions := by
    intro v hv
    rw [iterate.basis.owners_eq] at hv
    rcases List.mem_cons.mp hv with rfl | hv
    · apply List.mem_of_getElem? hfirst
    · apply hbasic v hv
  apply (iterate.basis.nodup_owners.subperm hsubset).perm_of_length_le
  rw [hlength, Basis.length_owners, h.nrRows]

/-! ### Values -/

theorem value?_of_variableAt? {i : ℕ} (h : iterate.basis.variableAt? i = some v) :
  iterate.value? model v = iterate.values[i]?
  := by
  unfold value?
  rw [Basis.positionOf?_eq_some_iff.mpr h]

theorem value?_of_isNonbasic (h : iterate.basis.isNonbasic v = true) :
  iterate.value? model v = iterate.restingValue? model v
  := by
  unfold value?
  rw [Basis.positionOf?_eq_none_iff.mpr (Basis.isNonbasic_iff.mp h).2]

/-- The side that a variable rests at goes by its bounds and the side that is stored for it. -/
theorem restingSide?_eq {bounds : Bounds F} {stored : Side}
    (hbounds : model.bounds? v = some bounds) (hstored : iterate.basis.side? v = some stored) :
  iterate.restingSide? model v = some (bounds.restingSide? stored)
  := by
  unfold Iterate.restingSide?
  rw [hbounds, hstored]
  rfl

/-- The value of a nonbasic variable. -/
theorem Sized.exists_restingValue? (h : iterate.Sized model)
    (hv : iterate.basis.isNonbasic v = true) :
  ∃ bounds stored, model.bounds? v = some bounds ∧ iterate.basis.side? v = some stored
    ∧ iterate.restingValue? model v = some (bounds.restingValue stored)
  := by
  have hlt := (Basis.isNonbasic_iff.mp hv).1
  obtain ⟨stored, hstored⟩ := Basis.exists_side? hlt
  rw [h.nrVariables] at hlt
  obtain ⟨bounds, hbounds⟩ := Model.exists_bounds? hlt
  refine ⟨bounds, stored, hbounds, hstored, ?_⟩
  unfold restingValue?
  rw [hbounds, hstored]
  simp [hv]

/-- Every variable has a value. -/
theorem Sized.exists_value? (h : iterate.Sized model) (hv : v < model.nrVariables) :
  ∃ x, iterate.value? model v = some x
  := by
  rcases h.position_or_nonbasic hv with ⟨i, hi⟩ | hnonbasic
  · have hlt : i < iterate.values.length := by
      rw [h.values]
      apply i.isLt
    rw [value?_of_variableAt? hi]
    exact ⟨_, List.getElem?_eq_getElem hlt⟩
  · obtain ⟨bounds, stored, -, -, hresting⟩ := h.exists_restingValue? hnonbasic
    rw [value?_of_isNonbasic hnonbasic]
    exact ⟨_, hresting⟩

/-! ### Rows -/

theorem row?_spec {row : BasicRow F} (h : iterate.row? model position = some row) :
  row.position = position ∧ iterate.basis.variableAt? position = some row.owner
    ∧ iterate.values[position]? = some row.value ∧ model.bounds? row.owner = some row.bounds
  := by
  unfold row? at h
  obtain ⟨owner, howner, h⟩ := Option.bind_eq_some_iff.mp h
  obtain ⟨value, hvalue, h⟩ := Option.bind_eq_some_iff.mp h
  obtain ⟨bounds, hbounds, h⟩ := Option.bind_eq_some_iff.mp h
  cases h
  exact ⟨rfl, howner, hvalue, hbounds⟩

/-- Every position has a row. -/
theorem Sized.exists_row? (h : iterate.Sized model) (hposition : position ≤ model.nrRows) :
  ∃ row, iterate.row? model position = some row
  := by
  have howner : position < iterate.basis.owners.length := by
    rw [Basis.length_owners, h.nrRows]
    omega
  have hvalue : position < iterate.values.length := by
    rw [h.values]
    omega
  have hlt := Basis.lt_of_mem_owners (List.getElem_mem howner)
  rw [h.nrVariables] at hlt
  obtain ⟨bounds, hbounds⟩ := Model.exists_bounds? hlt
  unfold row?
  rw [Basis.variableAt?_eq, List.getElem?_eq_getElem howner, Option.bind_eq_bind,
    Option.bind_some, List.getElem?_eq_getElem hvalue, Option.bind_eq_bind, Option.bind_some,
    hbounds]
  exact ⟨_, rfl⟩

/-- The rows are those of the positions from `1` to `m`. -/
theorem Sized.exists_rows? (h : iterate.Sized model) :
  ∃ rows, iterate.rows? model = some rows
  := by
  apply exists_mapM
  intro position hposition
  rw [h.values, List.mem_range'_1] at hposition
  apply h.exists_row?
  omega

theorem mem_rows? (hsized : iterate.Sized model) {rows : List (BasicRow F)}
    (h : iterate.rows? model = some rows) {row : BasicRow F} (hrow : row ∈ rows) :
  row.position ≠ 0 ∧ row.position ≤ model.nrRows
    ∧ iterate.row? model row.position = some row
  := by
  obtain ⟨position, hposition, hread⟩ := exists_of_mem_mapM h hrow
  rw [hsized.values, List.mem_range'_1] at hposition
  rw [(row?_spec hread).1]
  refine ⟨by omega, by omega, hread⟩

/-- Feasibility can be decided. -/
theorem Sized.exists_isFeasible? (h : iterate.Sized model) (tolerances : Tolerances F) :
  ∃ feasible, iterate.isFeasible? tolerances model = some feasible
  := by
  obtain ⟨rows, hrows⟩ := h.exists_rows?
  unfold isFeasible?
  rw [hrows]
  exact ⟨_, rfl⟩

/-! ### Nonbasic variables -/

/-- A movable variable comes with its side and its column. -/
theorem movableVariable?_some {index : ℕ} {x : Nonbasic F}
    (h : iterate.movableVariable? tolerances model index = some (some x)) :
  x.index = index ∧ iterate.restingSide? model index = some x.side
    ∧ model.column? index = some x.column
  := by
  unfold movableVariable? at h
  obtain ⟨bounds, hbounds, h⟩ := Option.bind_eq_some_iff.mp h
  split at h
  · cases h
  · obtain ⟨side, hside, h⟩ := Option.bind_eq_some_iff.mp h
    obtain ⟨column, hcolumn, h⟩ := Option.bind_eq_some_iff.mp h
    cases h
    exact ⟨rfl, hside, hcolumn⟩

theorem mem_movable? {movable : List (Nonbasic F)}
    (h : iterate.movable? tolerances model = some movable) {x : Nonbasic F} (hx : x ∈ movable) :
  iterate.basis.isNonbasic x.index = true
    ∧ iterate.restingSide? model x.index = some x.side
    ∧ model.column? x.index = some x.column
  := by
  unfold movable? at h
  obtain ⟨all, hall, h⟩ := Option.bind_eq_some_iff.mp h
  cases h
  obtain ⟨result, hresult, heq⟩ := List.mem_filterMap.mp hx
  rw [id_eq] at heq
  subst heq
  obtain ⟨index, hindex, hread⟩ := exists_of_mem_mapM hall hresult
  obtain ⟨rfl, hside, hcolumn⟩ := movableVariable?_some hread
  exact ⟨Basis.mem_nonbasic.mp hindex, hside, hcolumn⟩

/-! ### Iterations -/

/-- What a bound flip is made of. -/
theorem flip?_spec (h : iterate.flip? entering theta range = some after) :
  ∃ values basis,
    iterate.values.subtractMultiple? (if theta < 0 then -range else range) iterate.pivotColumn
      = some values
    ∧ iterate.basis.flip? entering = some basis
    ∧ after = { iterate with basis, values, boundFlips := iterate.boundFlips + 1 }
  := by
  unfold Iterate.flip? at h
  obtain ⟨values, hvalues, h⟩ := Option.bind_eq_some_iff.mp h
  obtain ⟨basis, hbasis, h⟩ := Option.bind_eq_some_iff.mp h
  cases h
  exact ⟨values, basis, hvalues, hbasis, rfl⟩

/-- What an exchange is made of. -/
theorem exchange?_spec {row : ℕ}
    (h : iterate.exchange? tolerances model row entering theta = some after) :
  ∃ resting moved leavingValue leaving exchanged bounds basis values,
    iterate.restingValue? model entering = some resting
    ∧ iterate.values.subtractMultiple? theta iterate.pivotColumn = some moved
    ∧ moved[row]? = some leavingValue
    ∧ iterate.basis.exchange? row entering = some (leaving, exchanged)
    ∧ model.bounds? leaving = some bounds
    ∧ exchanged.setSide? leaving (bounds.closestSide tolerances.primal leavingValue) = some basis
    ∧ moved.set? row (resting + theta) = some values
    ∧ after = { iterate with basis, values, majorPivots := iterate.majorPivots + 1 }
  := by
  unfold Iterate.exchange? at h
  obtain ⟨resting, hresting, h⟩ := Option.bind_eq_some_iff.mp h
  obtain ⟨moved, hmoved, h⟩ := Option.bind_eq_some_iff.mp h
  obtain ⟨leavingValue, hleavingValue, h⟩ := Option.bind_eq_some_iff.mp h
  obtain ⟨⟨leaving, exchanged⟩, hexchanged, h⟩ := Option.bind_eq_some_iff.mp h
  obtain ⟨bounds, hbounds, h⟩ := Option.bind_eq_some_iff.mp h
  obtain ⟨basis, hbasis, h⟩ := Option.bind_eq_some_iff.mp h
  obtain ⟨values, hvalues, h⟩ := Option.bind_eq_some_iff.mp h
  cases h
  exact ⟨resting, moved, leavingValue, leaving, exchanged, bounds, basis, values, hresting, hmoved,
    hleavingValue, hexchanged, hbounds, hbasis, hvalues, rfl⟩

/-- A bound flip changes the values and the side of the entering variable. -/
theorem Sized.flip? (h : iterate.Sized model)
    (hafter : iterate.flip? entering theta range = some after) :
  after.Sized model ∧ ∃ basis values,
    after = { iterate with basis, values, boundFlips := iterate.boundFlips + 1 }
  := by
  obtain ⟨values, basis, hvalues, hbasis, rfl⟩ := flip?_spec hafter
  obtain ⟨stored, -, -, howners, hsides⟩ := Basis.flip?_eq hbasis
  refine ⟨⟨?_, ?_, ?_, h.pivotColumn⟩, basis, values, rfl⟩
  · have hlengths := congrArg List.length howners
    rw [Basis.length_owners, Basis.length_owners, h.nrRows] at hlengths
    apply Nat.succ_injective hlengths
  · apply Eq.trans (Basis.nrVariables_congr _) h.nrVariables
    rw [hsides, List.length_set]
  · rw [DenseVector.length_subtractMultiple? hvalues, h.values]

/-- An exchange changes the values and a basic variable. -/
theorem Sized.exchange? (h : iterate.Sized model) {row : ℕ}
    (hafter : iterate.exchange? tolerances model row entering theta = some after) :
  after.Sized model ∧ ∃ basis values,
    after = { iterate with basis, values, majorPivots := iterate.majorPivots + 1 }
  := by
  obtain ⟨_, moved, _, _, exchanged, _, basis, values, -, hmoved, -, hexchanged, -, hbasis, hvalues,
    rfl⟩ := exchange?_spec hafter
  obtain ⟨hrows, hvariables, -⟩ := Basis.exchange?_setSide?_eq hexchanged hbasis
  refine ⟨⟨hrows.trans h.nrRows, hvariables.trans h.nrVariables, ?_, h.pivotColumn⟩,
    basis, values, rfl⟩
  rw [DenseVector.length_set? hvalues, DenseVector.length_subtractMultiple? hmoved, h.values]

/-- What an iteration comes to.  A bound flip goes over the whole range, and is refused without one.
An exchange commits the staged column, and is refused without one. -/
theorem perform?_cases {leavingRow : Option ℕ} {primal : Bool}
    {performed : Outcome (Iterate F × R) (Except Error IterationKind)}
    (h : iterate.perform? context model factorization leavingRow entering theta primal
      = some performed) :
  (isBoundFlip? context.tolerances model leavingRow entering theta primal = some true
      ∧ ∃ bounds, model.bounds? entering = some bounds
        ∧ ((∃ range after, bounds.finiteRange? = some range
            ∧ iterate.flip? entering theta range = some after
            ∧ performed.result = .ok .boundFlip ∧ performed.state = (after, factorization))
          ∨ (bounds.finiteRange? = none ∧ performed.result = .error (.unboundedFlip entering)
            ∧ performed.state = (iterate, factorization))))
    ∨ (isBoundFlip? context.tolerances model leavingRow entering theta primal = some false
      ∧ ∃ row finished, leavingRow = some row
        ∧ BasisFactorization.finishUpdate? false factorization = some finished
        ∧ ((finished.result = true ∧ ∃ after,
            iterate.exchange? context.tolerances model row entering theta = some after
            ∧ performed.result = .ok .majorPivot ∧ performed.state = (after, finished.state))
          ∨ (finished.result = false ∧ performed.result = .error .noStagedColumn
            ∧ performed.state = (iterate, finished.state))))
  := by
  unfold perform? at h
  split at h
  · cases h
  · obtain ⟨flips, hflips, h⟩ := Option.bind_eq_some_iff.mp h
    rw [hflips]
    cases flips with
    | true =>
        rw [if_pos rfl] at h
        obtain ⟨bounds, hbounds, h⟩ := Option.bind_eq_some_iff.mp h
        refine Or.inl ⟨rfl, bounds, hbounds, ?_⟩
        cases hrange : bounds.finiteRange? with
        | none =>
            rw [hrange] at h
            cases h
            exact Or.inr ⟨rfl, rfl, rfl⟩
        | some range =>
            rw [hrange] at h
            obtain ⟨after, hafter, h⟩ := Option.bind_eq_some_iff.mp h
            cases h
            exact Or.inl ⟨range, after, rfl, hafter, rfl, rfl⟩
    | false =>
        rw [if_neg Bool.false_ne_true] at h
        cases leavingRow with
        | none => cases hflips
        | some row =>
            obtain ⟨finished, hfinished, h⟩ := Option.bind_eq_some_iff.mp h
            refine Or.inr ⟨rfl, row, finished, rfl, hfinished, ?_⟩
            split at h
            · rename_i hdone
              obtain ⟨after, hafter, h⟩ := Option.bind_eq_some_iff.mp h
              cases h
              exact Or.inl ⟨hdone, after, hafter, rfl, rfl⟩
            · rename_i hdone
              cases h
              exact Or.inr ⟨Bool.eq_false_iff.mpr hdone, rfl, rfl⟩

/-! ### Solves -/

/-- The column of a nonbasic variable, and of no other one, can become the pivot column. -/
theorem loadColumn?_spec
    (h : iterate.loadColumn? context model factorization entering = some after) :
  iterate.basis.isNonbasic entering = true
    ∧ ∃ column dense pivotColumn, model.column? entering = some column
      ∧ column.toDense? iterate.pivotColumn.length = some dense
      ∧ BasisFactorization.ftran? context factorization dense = some pivotColumn
      ∧ after = { iterate with pivotColumn }
  := by
  unfold loadColumn? at h
  split at h
  · rename_i hnonbasic
    obtain ⟨column, hcolumn, h⟩ := Option.bind_eq_some_iff.mp h
    obtain ⟨dense, hdense, h⟩ := Option.bind_eq_some_iff.mp h
    obtain ⟨pivotColumn, hsolved, h⟩ := Option.bind_eq_some_iff.mp h
    cases h
    exact ⟨hnonbasic, column, dense, pivotColumn, hcolumn, hdense, hsolved, rfl⟩
  · cases h

/-- A basis that is factorized takes over the positions of its factorization, and the values are
found with that. -/
theorem refactorize?_spec {outcome : Outcome (Iterate F × R) Factorization}
    (h : iterate.refactorize? context model factorization = some outcome) :
  ∃ factorized basis recomputed,
    BasisFactorization.factorize? context model iterate.basis.basic factorization
      = some factorized
    ∧ iterate.basis.applyPositions? factorized.result.positions model = some basis
    ∧ recompute? context model factorized.state { iterate with basis } = some recomputed
    ∧ outcome =
      { result := factorized.result
        state := ({ recomputed with current := true }, factorized.state)
        events := factorized.events }
  := by
  unfold refactorize? at h
  obtain ⟨factorized, hfactorized, h⟩ := Option.bind_eq_some_iff.mp h
  obtain ⟨basis, hbasis, h⟩ := Option.bind_eq_some_iff.mp h
  obtain ⟨recomputed, hrecomputed, h⟩ := Option.bind_eq_some_iff.mp h
  cases h
  exact ⟨factorized, basis, recomputed, hfactorized, hbasis, hrecomputed, rfl⟩

end Iterate

end RevisedSimplex
