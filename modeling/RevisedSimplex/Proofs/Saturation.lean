import RevisedSimplex.Proofs.FactorizationAccounts
import RevisedSimplex.Proofs.SingletonOrder
import RevisedSimplex.Proofs.ZeroEntries

/-!
# Factorizations without singular columns

When as many variables as there are rows are factorized and none of them is singular, the singleton
phase has ended in a saturated placement.

* A free row where no waiting variable has a nonzero stays zero in all transformed columns.  No
  column is pivoted on there, and the row is still free at the end, although there is a variable
  for every row.
* A waiting variable without a nonzero in a free row is left unchanged by all eta columns that are
  made before its turn.  When it is transformed it is zero in the rows that are free, and so it is
  singular.
-/

namespace RevisedSimplex

variable {F : Type} [Scalar F]

theorem Model.length_of_denseColumn? {model : Model F} {v : ℕ} {dense : DenseVector F}
    (h : model.denseColumn? v = some dense) :
  dense.length = model.nrRows + 1
  := by
  unfold Model.denseColumn? at h
  obtain ⟨entries, hentries, h⟩ := Option.bind_eq_some_iff.mp h
  obtain ⟨other, hother, hlength⟩ :=
    SparseVector.exists_toDense? (Model.column?_spec hentries).2
  rw [h, Option.some_inj] at hother
  rw [hother, hlength]

/-- A variable without a nonzero in a row is zero there. -/
theorem Model.vanishesAt_of_hits [ReflexiveZero F] {model : Model F} {v i : ℕ}
    {dense : DenseVector F} (h : model.denseColumn? v = some dense)
    (hhits : model.hits v i = false) :
  dense.VanishesAt i
  := by
  unfold Model.denseColumn? at h
  obtain ⟨entries, hentries, h⟩ := Option.bind_eq_some_iff.mp h
  unfold Model.hits at hhits
  rw [hentries, Option.any_some, List.any_eq_false] at hhits
  apply SparseVector.vanishesAt_of_toDense? _ h
  intro entry hentry hrow
  have hnot := hhits entry hentry
  rw [hrow, beq_self_eq_true, Bool.true_and, Bool.not_eq_true', Bool.not_eq_false] at hnot
  apply hnot

namespace Placement

variable {model : Model F} {indices : List ℕ} {placement result : Placement F} {k v i : ℕ}
  {context : Context F}

/-! ### Transformed variables -/

/-- What happens when a waiting variable is transformed. -/
structure Transforms (context : Context F) (model : Model F) (placement result : Placement F)
    (v : ℕ) (column : DenseVector F) : Prop where
  waiting : placement.elimination.waiting.Perm (v :: result.elimination.waiting)
  candidates : result.elimination.candidates = placement.elimination.candidates
  solved : ∃ dense solved, model.denseColumn? v = some dense
    ∧ placement.file.applyRight? dense = some solved
    ∧ column = solved.roundRelative context.tolerances.drop
  outcome : (∃ row eta inverse, pivotRow? context placement.elimination column = some row
      ∧ placement.elimination.isFree row = true
      ∧ EtaColumn.ofDense? column row v = some eta ∧ eta.invert? = some inverse
      ∧ result.file.columns = placement.file.columns ++ [inverse]
      ∧ (∀ i, result.elimination.isFree i = (placement.elimination.isFree i && i != row))
      ∧ result.positions = placement.positions.set row (some v)
      ∧ result.singular = placement.singular)
    ∨ (result.file = placement.file
      ∧ (∀ i, result.elimination.isFree i = placement.elimination.isFree i)
      ∧ result.positions = placement.positions
      ∧ result.singular = placement.singular ++ [v])

theorem Placed.denseColumn?_eq (h : placement.Placed model indices)
    {candidate : CandidateColumn F}
    (hcandidate : placement.elimination.candidates[k]? = some candidate) :
  model.denseColumn? candidate.owner = candidate.entries.toDense? placement.positions.length
  := by
  unfold Model.denseColumn?
  rw [(h.candidate k candidate hcandidate).2, h.length]
  rfl

/-- Transforming an unassigned candidate transforms its variable. -/
theorem Placed.transforms (h : placement.Placed model indices)
    (hk : placement.elimination.isUnassigned k = true)
    (hplace : placement.placeTransformed? context k = some result) :
  ∃ candidate column, placement.elimination.candidates[k]? = some candidate
    ∧ placement.Transforms context model result candidate.owner column
  := by
  obtain ⟨candidate, raw, solved, hcandidate, hraw, hsolved, hcases⟩ :=
    placeTransformed?_spec hplace
  rw [← h.denseColumn?_eq hcandidate] at hraw
  refine ⟨candidate, solved.roundRelative context.tolerances.drop, hcandidate, ?_⟩
  rcases hcases with ⟨row, eta, committed, rows, columns, hchoice, heta, hcommit, hplaced⟩
    | ⟨-, elimination, hdrop, rfl⟩
  · obtain ⟨inverse, hinverse, rfl⟩ := commit?_spec hcommit
    obtain ⟨other, elimination, hother, -, hfree, hcandidates, hset, hassigned, rfl⟩ :=
      place?_spec hplaced
    dsimp only at hother hfree hcandidates hset hassigned
    have hsame : other = candidate := Option.some_inj.mp (hother.symm.trans hcandidate)
    subst hsame
    constructor
    case waiting => apply Elimination.perm_waiting hk hcandidate hcandidates hassigned
    case candidates => apply hcandidates
    case solved => exact ⟨raw, solved, hraw, hsolved, rfl⟩
    case outcome =>
      exact Or.inl ⟨row, eta, inverse, hchoice, hfree, heta, hinverse,
        placement.file.columns_append inverse, Elimination.isFree_of_set _ hset, rfl, rfl⟩
  · obtain ⟨hcandidates, hfree, hassigned⟩ := Elimination.drop?_spec hdrop
    constructor
    case waiting => apply Elimination.perm_waiting hk hcandidate hcandidates hassigned
    case candidates => apply hcandidates
    case solved => exact ⟨raw, solved, hraw, hsolved, rfl⟩
    case outcome =>
      refine Or.inr ⟨rfl, ?_, rfl, rfl⟩
      intro i
      unfold Elimination.isFree
      rw [hfree]

/-! ### Rows that no waiting variable hits -/

/-- A free row where all waiting variables are transformed to zero. -/
structure Avoids (model : Model F) (placement : Placement F) (i : ℕ) : Prop where
  free : placement.elimination.isFree i = true
  solved : ∀ v ∈ placement.elimination.waiting, ∀ dense solved,
    model.denseColumn? v = some dense → placement.file.applyRight? dense = some solved →
    solved.VanishesAt i

/-- The eta column of a variable leaves such a row alone. -/
theorem Avoids.transforms [ReflexiveZero F] (h : placement.Avoids model i)
    {column : DenseVector F} (htransforms : placement.Transforms context model result v column) :
  result.Avoids model i
  := by
  have hwaits {w : ℕ} (hw : w ∈ result.elimination.waiting) :
      w ∈ placement.elimination.waiting :=
    htransforms.waiting.mem_iff.mpr (List.mem_cons_of_mem v hw)
  have hv : v ∈ placement.elimination.waiting :=
    htransforms.waiting.mem_iff.mpr List.mem_cons_self
  obtain ⟨dense, solved, hdense, hsolved, rfl⟩ := htransforms.solved
  have hzero := (h.solved v hv dense solved hdense hsolved).roundRelative context.tolerances.drop
  rcases htransforms.outcome with ⟨row, eta, inverse, -, -, heta, hinverse, hfile, hfree, -, -⟩
    | ⟨hfile, hfree, -, -⟩
  · obtain ⟨hrow, hoff⟩ := EtaColumn.not_mem_of_vanishesAt hzero heta hinverse
    have hpivotRow : inverse.pivotRow = row :=
      (EtaColumn.invert?_spec hinverse).1.trans (EtaColumn.ofDense?_spec heta).2.1
    constructor
    · rw [hfree, h.free, Bool.true_and, bne_iff_ne, ← hpivotRow]
      apply hrow
    · intro w hw first last hfirst hlast value hvalue
      rw [EtaFile.applyRight?_of_columns hfile] at hlast
      obtain ⟨middle, hmiddle, hlast⟩ := Option.bind_eq_some_iff.mp hlast
      rw [EtaColumn.getElem?_of_applyRight? hrow hoff hlast] at hvalue
      apply h.solved w (hwaits hw) first middle hfirst hmiddle value hvalue
  · constructor
    · rw [hfree, h.free]
    · intro w hw first last hfirst hlast
      rw [hfile] at hlast
      apply h.solved w (hwaits hw) first last hfirst hlast

/-! ### Variables that hit no free row -/

/-- A waiting variable that is left unchanged and is zero in all free rows. -/
structure Idle (model : Model F) (placement : Placement F) (v : ℕ) : Prop where
  waits : v ∈ placement.elimination.waiting
  solved : ∀ dense, model.denseColumn? v = some dense →
    placement.file.applyRight? dense = some dense
  vanishes : ∀ dense, model.denseColumn? v = some dense →
    ∀ i, placement.elimination.isFree i = true → dense.VanishesAt i

/-- Such a variable stays idle until it is singular itself, or another one is. -/
theorem Idle.transforms [ReflexiveZero F] (h : placement.Idle model v)
    (hplaced : placement.Placed model indices) {w : ℕ} {column : DenseVector F}
    (htransforms : placement.Transforms context model result w column) :
  result.Idle model v ∨ result.singular ≠ []
  := by
  rcases htransforms.outcome with
    ⟨row, eta, inverse, -, hrow, heta, hinverse, hfile, hfree, -, -⟩ | ⟨-, -, -, hsingular⟩
  · apply Or.inl
    have hpivotRow : inverse.pivotRow = row :=
      (EtaColumn.invert?_spec hinverse).1.trans (EtaColumn.ofDense?_spec heta).2.1
    have hne : v ≠ w := by
      rintro rfl
      obtain ⟨dense, solved, hdense, hsolved, rfl⟩ := htransforms.solved
      rw [h.solved dense hdense, Option.some_inj] at hsolved
      subst hsolved
      have hzero := (h.vanishes dense hdense row hrow).roundRelative context.tolerances.drop
      apply (EtaColumn.not_mem_of_vanishesAt hzero heta hinverse).1
      rw [hpivotRow]
    constructor
    case waits =>
      apply (List.mem_cons.mp (htransforms.waiting.mem_iff.mp h.waits)).resolve_left hne
    case solved =>
      intro dense hdense
      rw [EtaFile.applyRight?_of_columns hfile, h.solved dense hdense, Option.bind_some]
      apply EtaColumn.applyRight?_of_vanishesAt
      · rw [hpivotRow, Model.length_of_denseColumn? hdense]
        apply hplaced.row_lt hrow
      · rw [hpivotRow]
        apply h.vanishes dense hdense row hrow
    case vanishes =>
      intro dense hdense i hi
      rw [hfree, Bool.and_eq_true] at hi
      apply h.vanishes dense hdense i hi.1
  · apply Or.inr
    rw [hsingular]
    simp

theorem Transforms.singular_ne_nil {column : DenseVector F}
    (h : placement.Transforms context model result v column) (hsingular : placement.singular ≠ []) :
  result.singular ≠ []
  := by
  rcases h.outcome with ⟨_, _, _, -, -, -, -, -, -, -, hsame⟩ | ⟨-, -, -, happend⟩
  · rw [hsame]
    apply hsingular
  · rw [happend]
    simp

/-! ### Saturation -/

/-- The file of a regular placement leaves the columns of waiting variables as they are. -/
theorem Regular.applyRight?_eq [ReflexiveZero F] (h : placement.Regular model indices)
    (hshaped : placement.Shaped (model.nrRows + 1)) (hv : v ∈ placement.elimination.waiting)
    {dense : DenseVector F} (hdense : model.denseColumn? v = some dense) :
  placement.file.applyRight? dense = some dense
  := by
  apply EtaFile.applyRight?_of_vanishesAt
  intro eta heta
  constructor
  · rw [Model.length_of_denseColumn? hdense]
    apply (hshaped.fits eta heta).pivotRow_lt
  · apply Model.vanishesAt_of_hits hdense (h.untouched v hv eta heta)

/-- Once as many variables as there are rows all have one, no row is free. -/
theorem Distributed.isFree_eq_false (h : placement.Distributed model indices)
    (hnodup : indices.Nodup) (hpositive : ∀ v ∈ indices, 0 < v)
    (hlength : indices.length = model.nrRows) (hwaiting : placement.elimination.waiting = [])
    (hsingular : placement.singular = []) (i : ℕ) :
  placement.elimination.isFree i = false
  := by
  have hvariables := h.structurals
  rw [hwaiting, hsingular, List.nil_append, List.append_nil] at hvariables
  have hfilled (v : ℕ) (hv : v ∈ 0 :: indices) : v ∈ placement.filledPositions := by
    rcases List.mem_cons.mp hv with rfl | hv
    · apply List.mem_of_getElem?
      rw [getElem?_filledPositions, h.placed.dummy]
      rfl
    · obtain hle | hgt := le_or_gt v model.nrRows
      · apply List.mem_of_getElem?
        rw [getElem?_filledPositions, h.slacks v hv hle]
        rfl
      · have hmem := hvariables.mem_iff.mpr (List.mem_filter.mpr ⟨hv, decide_eq_true hgt⟩)
        apply (List.mem_filter.mp hmem).1
  have hdistinct : (0 :: indices).Nodup :=
    List.nodup_cons.mpr ⟨fun hzero => lt_irrefl 0 (hpositive 0 hzero), hnodup⟩
  have hsame : (0 :: indices).Perm placement.filledPositions := by
    apply (List.subperm_of_subset hdistinct hfilled).perm_of_length_le
    unfold filledPositions
    rw [List.length_mapIdx, h.placed.length, List.length_cons, hlength]
  rw [Bool.eq_false_iff]
  intro hi
  have hslack := List.mem_of_getElem? (h.placed.getElem?_filledPositions hi)
  rcases List.mem_cons.mp (hsame.mem_iff.mpr hslack) with rfl | hgiven
  · apply h.placed.ne_of_isFree hi h.placed.dummy rfl
  · have hle : i ≤ model.nrRows := Nat.le_of_lt_succ (h.placed.row_lt hi)
    apply h.placed.ne_of_isFree hi (h.slacks i hgiven hle) rfl

/-- When no variable is singular, the singleton phase has ended in a saturated placement. -/
theorem Regular.saturated [ReflexiveZero F] (h : placement.Regular model indices)
    (hshaped : placement.Shaped (model.nrRows + 1)) (hnodup : indices.Nodup)
    (hpositive : ∀ v ∈ indices, 0 < v) (hlength : indices.length = model.nrRows)
    {remaining : List ℕ} (hlists : placement.Lists remaining)
    (hrest : placeRest? context remaining.length remaining placement = some result)
    (hsingular : result.singular = []) :
  placement.Saturated model
  := by
  constructor
  · intro i hi
    by_contra hnone
    push Not at hnone
    have havoids : placement.Avoids model i := by
      refine ⟨hi, ?_⟩
      intro v hv dense solved hdense hsolved
      rw [h.applyRight?_eq hshaped hv hdense, Option.some_inj] at hsolved
      rw [← hsolved]
      apply Model.vanishesAt_of_hits hdense
      rw [Bool.eq_false_iff]
      apply hnone v hv
    obtain ⟨⟨haccounted, hlast⟩, hall⟩ := placeRest?_exhausts
      (motive := fun p => p.Accounted model indices ∧ p.Avoids model i)
      (fun hmotive _ hk hplace => by
        obtain ⟨candidate, column, -, htransforms⟩ := hmotive.1.placed.transforms hk hplace
        exact ⟨hmotive.1.placeTransformed? hk hplace, hmotive.2.transforms htransforms⟩)
      rfl hlists (fun _ _ _ => trivial) ⟨h.toAccounted, havoids⟩ hrest
    have hwaiting : result.elimination.waiting = [] := by
      apply List.eq_nil_iff_forall_not_mem.mpr
      intro v hv
      obtain ⟨k, _, hk, -⟩ := Elimination.mem_waiting.mp hv
      rw [hall k] at hk
      cases hk
    have hfree := haccounted.isFree_eq_false hnodup hpositive hlength hwaiting hsingular i
    rw [hlast.free] at hfree
    cases hfree
  · intro v hv
    by_contra hnone
    push Not at hnone
    have hidle : placement.Idle model v := by
      refine ⟨hv, ?_, ?_⟩
      · intro dense hdense
        apply h.applyRight?_eq hshaped hv hdense
      · intro dense hdense i hi
        apply Model.vanishesAt_of_hits hdense
        rw [Bool.eq_false_iff]
        apply hnone i hi
    obtain ⟨⟨-, hlast⟩, hall⟩ := placeRest?_exhausts
      (motive := fun p => p.Accounted model indices ∧ (p.Idle model v ∨ p.singular ≠ []))
      (fun hmotive _ hk hplace => by
        obtain ⟨candidate, column, -, htransforms⟩ := hmotive.1.placed.transforms hk hplace
        refine ⟨hmotive.1.placeTransformed? hk hplace, ?_⟩
        rcases hmotive.2 with hidle | hne
        · apply hidle.transforms hmotive.1.placed htransforms
        · apply Or.inr (htransforms.singular_ne_nil hne))
      rfl hlists (fun _ _ _ => trivial) ⟨h.toAccounted, Or.inl hidle⟩ hrest
    rcases hlast with hidle | hne
    · obtain ⟨k, _, hk, -⟩ := Elimination.mem_waiting.mp hidle.waits
      rw [hall k] at hk
      cases hk
    · apply hne hsingular

end Placement

end RevisedSimplex
