import RevisedSimplex.Proofs.FactorizationAccounts
import RevisedSimplex.Proofs.SolverShape

/-!
# Operations on iterates that never fail

An operation on an iterate of the size of its model has a result whenever it is asked for what it
is made for: a nonbasic variable to enter, a row of the constraints to leave, distinct variables to
factorize.  A factorization needs besides that no pivot of it is zero, for which it is enough that
pivots are chosen by their magnitude among those above a positive tolerance.
-/

namespace RevisedSimplex

variable {F : Type} [Scalar F] {model : Model F} {form : ProductForm F}

namespace Iterate

variable {iterate : Iterate F} {v entering : ℕ}

/-! ### Values from scratch -/

/-- The right hand side of the augmented system can be read. -/
theorem exists_augmentedRightHandSide? (model : Model F) :
  ∃ start, augmentedRightHandSide? model model.nrRows = some start
    ∧ start.length = model.nrRows + 1
  := by
  have hread : ∃ values, (List.range' 1 model.nrRows).mapM model.rightHandSide? = some values := by
    apply exists_mapM
    intro row hrow
    rw [List.mem_range'_1] at hrow
    have hlength := model.rightHandSide_length
    unfold Model.nrRows at hrow
    unfold Model.rightHandSide?
    rw [if_neg (by omega)]
    exact ⟨_, List.getElem?_eq_getElem (by omega)⟩
  obtain ⟨values, hvalues⟩ := hread
  have hlength := congrArg List.length (mapM_eq_some_iff.mp hvalues)
  rw [List.length_map, List.length_map, List.length_range'] at hlength
  refine ⟨0 :: values, ?_, ?_⟩
  · unfold augmentedRightHandSide?
    rw [hvalues]
    rfl
  · rw [List.length_cons, ← hlength]

/-- A nonbasic variable is one of the model. -/
theorem Sized.lt_of_isNonbasic (h : iterate.Sized model) (hv : iterate.basis.isNonbasic v = true) :
  v < model.nrVariables
  := by
  rw [← h.nrVariables]
  apply (Basis.isNonbasic_iff.mp hv).1

/-- A nonbasic variable can be moved to the right hand side. -/
theorem Sized.exists_moveToRight? (h : iterate.Sized model)
    (hv : iterate.basis.isNonbasic v = true) {vector : DenseVector F}
    (hvector : vector.length = model.nrRows + 1) :
  ∃ moved, iterate.moveToRight? model vector v = some moved ∧ moved.length = model.nrRows + 1
  := by
  obtain ⟨bounds, stored, -, -, hresting⟩ := h.exists_restingValue? hv
  obtain ⟨column, hcolumn, -, hbound⟩ := model.column?_eq (h.lt_of_isNonbasic hv)
  unfold moveToRight?
  rw [hresting, Option.bind_eq_bind, Option.bind_some]
  split
  · exact ⟨vector, rfl, hvector⟩
  · rw [hcolumn]
    apply SparseVector.exists_foldlM_modify?
      (fun value x => x - value * bounds.restingValue stored) hbound hvector

/-- Values can be found from scratch with every form that fits. -/
theorem Sized.exists_recompute? (h : iterate.Sized model) (context : Context F)
    (hform : form.Shaped) (hsize : form.nrRows = model.nrRows) :
  ∃ after, iterate.recompute? context model form = some after
  := by
  obtain ⟨start, hstart, hlength⟩ := exists_augmentedRightHandSide? model
  have hmove : ∃ moved, iterate.basis.nonbasic.foldlM (iterate.moveToRight? model) start
      = some moved ∧ moved.length = model.nrRows + 1 := by
    apply exists_foldlM (motive := fun v : DenseVector F => v.length = model.nrRows + 1) _ hlength
    intro v hv vector hvector
    apply h.exists_moveToRight? (Basis.mem_nonbasic.mp hv) hvector
  obtain ⟨moved, hmoved, hlength⟩ := hmove
  rw [← hsize] at hlength
  obtain ⟨solved, hsolved, -⟩ := hform.exists_ftran? context hlength
  have hsolved : BasisFactorization.ftran? context form moved = some solved := hsolved
  unfold recompute?
  simp only [h.nrRows, hstart, hmoved, hsolved, Option.bind_eq_bind, Option.bind_some]
  exact ⟨_, rfl⟩

/-- A basis can be factorized and its values be found from scratch. -/
theorem Sized.exists_refactorize? [LawfulScalar F] (h : iterate.Sized model) {context : Context F}
    (hsize : form.nrRows = model.nrRows) (hpivot : 0 < context.tolerances.factorizationPivot)
    (hselection : context.rowSelection = .largestMagnitude) :
  ∃ outcome, iterate.refactorize? context model form = some outcome
  := by
  have hindices (v : ℕ) (hv : v ∈ iterate.basis.basic) : 0 < v ∧ v < model.nrVariables :=
    h.of_mem_basic hv
  obtain ⟨placed, hplaced⟩ :=
    PlacedBasis.exists_of? hpivot hselection iterate.basis.nodup_basic hindices
  obtain ⟨haccounts, -⟩ := PlacedBasis.accounts_of_of? iterate.basis.nodup_basic hindices hplaced
  obtain ⟨outcome, houtcome, hresult, -, hrows, -⟩ :=
    ProductForm.factorize?_of_placed hsize hplaced
  have hpositions : ∀ v ∈ placed.positions, v < model.nrVariables := by
    intro v hv
    obtain ⟨i, hi⟩ := List.mem_iff_getElem?.mp hv
    rcases haccounts.row i v hi with rfl | ⟨hmem, -⟩
    · have hlt := (List.getElem?_eq_some_iff.mp hi).1
      rw [haccounts.length] at hlt
      unfold Model.nrVariables
      omega
    · apply (hindices v hmem).2
  obtain ⟨basis, hbasis⟩ :=
    h.exists_applyPositions? haccounts.dummy haccounts.length haccounts.nodup hpositions
  obtain ⟨after, hafter⟩ := (h.applyPositions? hbasis).exists_recompute? context
    (ProductForm.shaped_of_factorize? houtcome) (hrows.trans hsize)
  have houtcome : BasisFactorization.factorize? context model iterate.basis.basic form
      = some outcome := houtcome
  have hpositions : outcome.result.positions = placed.positions := by
    rw [hresult]
  unfold refactorize?
  simp only [houtcome, hpositions, hbasis, hafter, Option.bind_eq_bind, Option.bind_some]
  exact ⟨_, rfl⟩

/-! ### Entering -/

/-- The column of a nonbasic variable can be solved. -/
theorem Sized.exists_loadColumn? (h : iterate.Sized model) (context : Context F)
    (hform : form.Shaped) (hsize : form.nrRows = model.nrRows)
    (hv : iterate.basis.isNonbasic entering = true) :
  ∃ loaded, iterate.loadColumn? context model form entering = some loaded
  := by
  obtain ⟨column, hcolumn, -, hbound⟩ := model.column?_eq (h.lt_of_isNonbasic hv)
  obtain ⟨dense, hdense, hlength⟩ := SparseVector.exists_toDense? hbound
  rw [← hsize] at hlength
  obtain ⟨solved, hsolved, -⟩ := hform.exists_ftran? context hlength
  have hsolved : BasisFactorization.ftran? context form dense = some solved := hsolved
  unfold loadColumn?
  rw [if_pos hv]
  simp only [hcolumn, h.pivotColumn, hdense, hsolved, Option.bind_eq_bind, Option.bind_some]
  exact ⟨_, rfl⟩

/-- The balance of the rows at a bound can be found. -/
theorem Sized.exists_isDegenerate? (h : iterate.Sized model) (tolerances : Tolerances F)
    {column : DenseVector F} (hcolumn : column.length = model.nrRows + 1) (direction : F) :
  ∃ degenerate, iterate.isDegenerate? tolerances model column direction = some degenerate
  := by
  have hfold : ∃ total, (column.zipIdx.drop 1).foldlM
      (fun (total : F) entry =>
        if entry.1 == 0 then some total
        else do
          let row ← iterate.row? model entry.2
          some (total + blockingRate tolerances.primal (direction * entry.1) row)) 0
        = some total ∧ True := by
    apply exists_foldlM _ trivial
    rintro ⟨alpha, position⟩ hentry total -
    have hget := List.mem_zipIdx_iff_getElem?.mp (List.mem_of_mem_drop hentry)
    obtain ⟨hlt, -⟩ := List.getElem?_eq_some_iff.mp hget
    dsimp only at hlt ⊢
    split
    · exact ⟨_, rfl, trivial⟩
    · obtain ⟨row, hrow⟩ := h.exists_row? (show position ≤ model.nrRows by omega)
      rw [hrow]
      exact ⟨_, rfl, trivial⟩
  obtain ⟨total, htotal, -⟩ := hfold
  unfold isDegenerate?
  rw [htotal]
  exact ⟨_, rfl⟩

/-- The nonbasic variables can be listed. -/
theorem Sized.exists_movable? (h : iterate.Sized model) (tolerances : Tolerances F) :
  ∃ movable, iterate.movable? tolerances model = some movable
  := by
  have hread : ∃ all, iterate.basis.nonbasic.mapM (iterate.movableVariable? tolerances model)
      = some all := by
    apply exists_mapM
    intro v hv
    have hnonbasic := Basis.mem_nonbasic.mp hv
    obtain ⟨bounds, stored, hbounds, hstored, -⟩ := h.exists_restingValue? hnonbasic
    obtain ⟨column, hcolumn, -⟩ := model.column?_eq (h.lt_of_isNonbasic hnonbasic)
    unfold movableVariable? restingSide?
    rw [hbounds, Option.bind_eq_bind, Option.bind_some]
    split
    · exact ⟨_, rfl⟩
    · rw [hstored, hcolumn]
      exact ⟨_, rfl⟩
  obtain ⟨all, hall⟩ := hread
  unfold movable?
  rw [hall]
  exact ⟨_, rfl⟩

/-! ### Iterations -/

/-- A nonbasic variable can be moved to its other bound. -/
theorem Sized.exists_flip? (h : iterate.Sized model)
    (hv : iterate.basis.isNonbasic entering = true) (theta range : F) :
  ∃ after, iterate.flip? entering theta range = some after
  := by
  obtain ⟨values, hvalues, -⟩ := DenseVector.exists_subtractMultiple? h.values h.pivotColumn
    (if theta < 0 then -range else range)
  obtain ⟨basis, hbasis⟩ := Basis.exists_flip? hv
  unfold Iterate.flip?
  simp only [hvalues, hbasis, Option.bind_eq_bind, Option.bind_some]
  exact ⟨_, rfl⟩

/-- A nonbasic variable can be exchanged for that of every row of the constraints. -/
theorem Sized.exists_exchange? (h : iterate.Sized model) (tolerances : Tolerances F) {row : ℕ}
    (hrow : row ≠ 0) (hle : row ≤ model.nrRows) (hv : iterate.basis.isNonbasic entering = true)
    (theta : F) :
  ∃ after, iterate.exchange? tolerances model row entering theta = some after
  := by
  obtain ⟨bounds, stored, -, -, hresting⟩ := h.exists_restingValue? hv
  obtain ⟨moved, hmoved, hlength⟩ :=
    DenseVector.exists_subtractMultiple? h.values h.pivotColumn theta
  have hlt : row < moved.length := by
    rw [hlength]
    omega
  obtain ⟨leaving, exchanged, hexchanged⟩ :=
    Basis.exists_exchange? hrow (by rw [h.nrRows]; apply hle) hv
  obtain ⟨-, hleaving, -, -, hsides⟩ := Basis.exchange?_eq hexchanged
  have hleaving := Basis.lt_of_mem_owners (List.mem_of_getElem? hleaving)
  obtain ⟨limits, hlimits⟩ := Model.exists_bounds? (h.nrVariables ▸ hleaving)
  have hleaving : leaving < exchanged.nrVariables := by
    rwa [Basis.nrVariables_congr (congrArg List.length hsides)]
  obtain ⟨basis, hbasis⟩ := Basis.exists_setSide? hleaving
    (limits.closestSide tolerances.primal moved[row])
  obtain ⟨values, hvalues, -⟩ := DenseVector.exists_set? hlength (Nat.lt_succ_of_le hle)
    (bounds.restingValue stored + theta)
  unfold Iterate.exchange?
  simp only [hresting, hmoved, List.getElem?_eq_getElem hlt, hexchanged, hlimits, hbasis, hvalues,
    Option.bind_eq_bind, Option.bind_some]
  exact ⟨_, rfl⟩

end Iterate

end RevisedSimplex
