import RevisedSimplex.Proofs.IteratePoint

/-!
# Moves of an iterate

An iteration moves the entering variable along its edge: the basic variables follow along the
pivot column, and the other variables stay where they are.  `Flipped` and `Exchanged` say what the
two kinds of iterations leave behind, whatever the step is and the column.

Afterwards every variable has its value on the edge, with a single exception that is read off a
bound.  After a bound flip this is the entering variable, and after an exchange the leaving one.
-/

namespace RevisedSimplex

variable {F : Type} [ExactScalar F]

namespace Iterate

variable {tolerances : Tolerances F} {model : Model F} {iterate after : Iterate F}
  {row entering leaving v : ℕ} {theta range step : F} {bounds : Bounds F}

/-! ### Edges -/

/-- The point after a step of a nonbasic variable along its edge. -/
def alongEdge (model : Model F) (iterate : Iterate F) (entering : ℕ) (theta : F) : ℕ → F :=
  fun v => match iterate.basis.positionOf? v with
    | some i => iterate.point model v - theta * iterate.pivotColumn[i]?.getD 0
    | none =>
        if v = entering then iterate.point model v + theta else iterate.point model v

theorem alongEdge_of_variableAt? {i : ℕ} (h : iterate.basis.variableAt? i = some v) :
  iterate.alongEdge model entering theta v
    = iterate.point model v - theta * iterate.pivotColumn[i]?.getD 0
  := by
  unfold alongEdge
  rw [Basis.positionOf?_eq_some_iff.mpr h]

theorem alongEdge_entering (h : iterate.basis.isNonbasic entering = true) :
  iterate.alongEdge model entering theta entering = iterate.point model entering + theta
  := by
  unfold alongEdge
  rw [Basis.positionOf?_eq_none_iff.mpr (Basis.isNonbasic_iff.mp h).2]
  apply if_pos rfl

theorem alongEdge_of_isNonbasic (h : iterate.basis.isNonbasic v = true) (hne : v ≠ entering) :
  iterate.alongEdge model entering theta v = iterate.point model v
  := by
  unfold alongEdge
  rw [Basis.positionOf?_eq_none_iff.mpr (Basis.isNonbasic_iff.mp h).2]
  apply if_neg hne

/-! ### Bound flips -/

/-- What a bound flip with a step along the edge leaves behind. -/
structure Flipped (model : Model F) (iterate : Iterate F) (entering : ℕ) (step : F)
    (after : Iterate F) : Prop where
  sized : after.Sized model
  current : after.current = iterate.current
  pivotColumn : after.pivotColumn = iterate.pivotColumn
  nonbasic : iterate.basis.isNonbasic entering = true
  owners : after.basis.owners = iterate.basis.owners
  side : ∃ stored, iterate.basis.side? entering = some stored
    ∧ after.basis.side? entering = some stored.other
  sides : ∀ v ≠ entering, after.basis.side? v = iterate.basis.side? v
  point : ∀ v < model.nrVariables, v ≠ entering →
    after.point model v = iterate.alongEdge model entering step v

/-- The basic variables are the same afterwards. -/
theorem Flipped.variableAt?_eq (h : iterate.Flipped model entering step after) (i : ℕ) :
  after.basis.variableAt? i = iterate.basis.variableAt? i
  := by
  rw [Basis.variableAt?_eq, h.owners, Basis.variableAt?_eq]

/-- The basic variables are on the edge afterwards. -/
theorem Flipped.point_of_variableAt? (h : iterate.Flipped model entering step after) {i : ℕ}
    (hi : after.basis.variableAt? i = some v) :
  after.point model v = iterate.alongEdge model entering step v
  := by
  have hmem := List.mem_of_getElem? hi
  apply h.point v
  · rw [← h.sized.nrVariables]
    apply Basis.lt_of_mem_owners hmem
  · rintro rfl
    rw [h.owners] at hmem
    apply (Basis.isNonbasic_iff.mp h.nonbasic).2 hmem

/-- A bound flip. -/
theorem Sized.flipped (h : iterate.Sized model)
    (hafter : iterate.flip? entering theta range = some after) :
  iterate.Flipped model entering (if theta < 0 then -range else range) after
  := by
  obtain ⟨hsized, -⟩ := h.flip? hafter
  obtain ⟨moved, basis, hmoved, hbasis, rfl⟩ := flip?_spec hafter
  obtain ⟨stored, hstored, hnonbasic, howners, hsides⟩ := Basis.flip?_eq hbasis
  have hvariableAt (i : ℕ) : basis.variableAt? i = iterate.basis.variableAt? i := by
    rw [Basis.variableAt?_eq, howners, Basis.variableAt?_eq]
  have hkept (v : ℕ) (hv : v ≠ entering) : basis.side? v = iterate.basis.side? v := by
    unfold BasisTable.side?
    rw [hsides, List.getElem?_set_ne hv.symm]
  refine ⟨hsized, rfl, rfl, hnonbasic, howners, ⟨stored, hstored, ?_⟩, hkept, ?_⟩
  · have hlt : entering < iterate.basis.sides.length := by
      rw [iterate.basis.length_sides]
      apply (Basis.isNonbasic_iff.mp hnonbasic).1
    change basis.sides[entering]? = _
    rw [hsides, List.getElem?_set_self hlt]
  · intro v hv hne
    obtain ⟨values, hvalues, -, hentries⟩ := DenseVector.subtractMultiple?_eq h.values h.pivotColumn
      (if theta < 0 then -range else range)
    rw [hmoved, Option.some_inj] at hvalues
    subst hvalues
    rcases h.position_or_nonbasic hv with ⟨i, hi⟩ | hnonbasic
    · rw [point_of_variableAt? ((hvariableAt i).trans hi), alongEdge_of_variableAt? hi,
        point_of_variableAt? hi, hentries]
      rfl
    · rw [alongEdge_of_isNonbasic hnonbasic hne]
      apply h.point_congr hsized hnonbasic _ (hkept v hne)
      apply Basis.isNonbasic_iff.mpr
      rw [howners, hsized.nrVariables, ← h.nrVariables]
      apply Basis.isNonbasic_iff.mp hnonbasic

/-! ### Exchanges -/

/-- What the exchange of the variable of a row for the entering one leaves behind. -/
structure Exchanged (tolerances : Tolerances F) (model : Model F) (iterate : Iterate F)
    (row entering : ℕ) (theta : F) (leaving : ℕ) (bounds : Bounds F) (after : Iterate F) : Prop
    where
  sized : after.Sized model
  current : after.current = iterate.current
  pivotColumn : after.pivotColumn = iterate.pivotColumn
  row_ne_zero : row ≠ 0
  nonbasic : iterate.basis.isNonbasic entering = true
  leaves : iterate.basis.variableAt? row = some leaving
  bounds_eq : model.bounds? leaving = some bounds
  nrVariables : after.basis.nrVariables = iterate.basis.nrVariables
  owners : after.basis.owners = iterate.basis.owners.set row entering
  isNonbasic_leaving : after.basis.isNonbasic leaving = true
  side : after.basis.side? leaving
    = some (bounds.closestSide tolerances.primal
      (iterate.alongEdge model entering theta leaving))
  kept : ∀ v, iterate.basis.isNonbasic v = true → v ≠ entering →
    after.basis.isNonbasic v = true ∧ after.basis.side? v = iterate.basis.side? v
  point : ∀ v < model.nrVariables, v ≠ leaving →
    after.point model v = iterate.alongEdge model entering theta v

/-- The entering variable is at the row afterwards. -/
theorem Exchanged.variableAt?_eq
    (h : iterate.Exchanged tolerances model row entering theta leaving bounds after) (i : ℕ) :
  after.basis.variableAt? i = if i = row then some entering else iterate.basis.variableAt? i
  := by
  rw [Basis.variableAt?_eq, h.owners, Basis.variableAt?_eq]
  split
  · rename_i hi
    rw [hi, List.getElem?_set_self (List.getElem?_eq_some_iff.mp h.leaves).1]
  · rename_i hi
    apply List.getElem?_set_ne fun e => hi e.symm

/-- The leaving variable is not the objective dummy. -/
theorem Exchanged.leaving_ne_zero
    (h : iterate.Exchanged tolerances model row entering theta leaving bounds after) :
  leaving ≠ 0
  := by
  rintro rfl
  have hrow := Basis.positionOf?_eq_some_iff.mpr h.leaves
  rw [Basis.positionOf?_eq_some_iff.mpr (Basis.variableAt?_zero _), Option.some_inj] at hrow
  apply h.row_ne_zero hrow.symm

/-- The leaving variable is the only one that becomes nonbasic. -/
theorem Exchanged.eq_leaving_or
    (h : iterate.Exchanged tolerances model row entering theta leaving bounds after)
    (hv : after.basis.isNonbasic v = true) :
  v = leaving ∨ iterate.basis.isNonbasic v = true ∧ v ≠ entering
  := by
  obtain ⟨hlt, hnot⟩ := Basis.isNonbasic_iff.mp hv
  have hnowhere (i : ℕ) : after.basis.variableAt? i ≠ some v := by
    intro hi
    apply hnot (List.mem_of_getElem? hi)
  rw [h.nrVariables] at hlt
  rcases Basis.position_or_nonbasic hlt with ⟨i, hi⟩ | hv
  · by_cases hrow : i = row
    · subst hrow
      apply Or.inl (Option.some_inj.mp (hi.symm.trans h.leaves))
    · exfalso
      apply hnowhere i
      rw [h.variableAt?_eq, if_neg hrow, hi]
  · refine Or.inr ⟨hv, ?_⟩
    rintro rfl
    apply hnowhere row
    rw [h.variableAt?_eq, if_pos rfl]

/-- The basic variables are on the edge afterwards, the entering one included. -/
theorem Exchanged.point_of_variableAt?
    (h : iterate.Exchanged tolerances model row entering theta leaving bounds after) {i : ℕ}
    (hi : after.basis.variableAt? i = some v) :
  after.point model v = iterate.alongEdge model entering theta v
  := by
  have hmem := List.mem_of_getElem? hi
  apply h.point v
  · rw [← h.sized.nrVariables]
    apply Basis.lt_of_mem_owners hmem
  · rintro rfl
    apply (Basis.isNonbasic_iff.mp h.isNonbasic_leaving).2 hmem

/-- An exchange. -/
theorem Sized.exchanged (h : iterate.Sized model)
    (hafter : iterate.exchange? tolerances model row entering theta = some after) :
  ∃ leaving bounds, iterate.Exchanged tolerances model row entering theta leaving bounds after
  := by
  obtain ⟨hsized, -⟩ := h.exchange? hafter
  obtain ⟨resting, moved, leavingValue, leaving, exchanged, bounds, basis, values, hresting, hmoved,
    hleavingValue, hexchanged, hbounds, hbasis, hvalues, rfl⟩ := exchange?_spec hafter
  obtain ⟨hne, hleaving, hnonbasic, -, -⟩ := Basis.exchange?_eq hexchanged
  obtain ⟨-, hvariables, howners, hvariableAt, hisNonbasic, hside, hkept⟩ :=
    Basis.exchange?_setSide?_eq hexchanged hbasis
  obtain ⟨_, hmoved', hmovedLength, hmovedEntries⟩ :=
    DenseVector.subtractMultiple?_eq h.values h.pivotColumn theta
  rw [hmoved, Option.some_inj] at hmoved'
  subst hmoved'
  have hlt := h.lt_of_variableAt? hleaving
  -- The value of a position on the edge.
  have hedge {i v : ℕ} (hi : iterate.basis.variableAt? i = some v) (hlt : i < model.nrRows + 1) :
      iterate.alongEdge model entering theta v = moved.entries (model.nrRows + 1) ⟨i, hlt⟩ := by
    rw [alongEdge_of_variableAt? hi, point_of_variableAt? (i := ⟨i, hlt⟩) hi, hmovedEntries]
    rfl
  have hvalue : leavingValue = iterate.alongEdge model entering theta leaving := by
    have hread := DenseVector.getElem?_eq_entries hmovedLength ⟨row, hlt⟩
    rw [hedge hleaving hlt]
    apply Option.some_inj.mp (hleavingValue.symm.trans hread)
  obtain ⟨_, hvalues', -, hvaluesEntries⟩ :=
    DenseVector.set?_eq hmovedLength ⟨row, hlt⟩ (resting + theta)
  rw [hvalues, Option.some_inj] at hvalues'
  subst hvalues'
  refine ⟨leaving, bounds, hsized, rfl, rfl, hne, hnonbasic, hleaving, hbounds, hvariables,
    howners, hisNonbasic, ?_, hkept, ?_⟩
  · rw [← hvalue]
    apply hside
  · intro v hv hvne
    rcases h.position_or_nonbasic hv with ⟨⟨i, hilt⟩, hi⟩ | hv
    · have hrow : i ≠ row := by
        rintro rfl
        apply hvne (Option.some_inj.mp (hi.symm.trans hleaving))
      have hi' : basis.variableAt? i = some v := by
        rw [hvariableAt, if_neg hrow, hi]
      rw [point_of_variableAt? (i := ⟨i, hilt⟩) hi', hvaluesEntries,
        Function.update_of_ne fun e => hrow (congrArg Fin.val e), hedge hi hilt]
    · by_cases hentering : v = entering
      · subst hentering
        have hi' : basis.variableAt? row = some v := by
          rw [hvariableAt, if_pos rfl]
        obtain ⟨_, _, -, -, hresting', hpoint⟩ := h.restingValue?_eq hnonbasic
        rw [hresting, Option.some_inj] at hresting'
        rw [point_of_variableAt? (i := ⟨row, hlt⟩) hi', hvaluesEntries, Function.update_self,
          alongEdge_entering hnonbasic, hpoint, hresting']
      · obtain ⟨hv', hsame⟩ := hkept v hv hentering
        rw [alongEdge_of_isNonbasic hv hentering]
        apply h.point_congr hsized hv hv' hsame

end Iterate

end RevisedSimplex
