import RevisedSimplex.Proofs.DoubleSolves
import RevisedSimplex.Proofs.PlacedBasis
import RevisedSimplex.Proofs.ProductFormSteps
import Mathlib.LinearAlgebra.Matrix.NonsingularInverse

/-!
# Product forms as inverses

`IsInverse` says that the file of a product form takes given columns to the unit vectors of their
positions.  A factorization gives such a form for the columns at its positions, and an update
keeps it with the entering column in the place of the leaving one.

Solving with a form multiplies with the matrix of its file, from the left in `ftran?` and from the
right in `btran?`.  Since the matrix has an inverse, it is determined by the columns that it
inverts.
-/

open Matrix

namespace RevisedSimplex

/-- The conditions on tolerances and rules under which nothing is rounded or chosen as a pivot
that is zero. -/
structure Context.Exact {F : Type} [ExactScalar F] (context : Context F) : Prop where
  drop : context.tolerances.drop = 0
  factorizationPivot : 0 < context.tolerances.factorizationPivot
  rowSelection : context.rowSelection.Positive

/-- Exact numbers and the row with the fewest candidates. -/
def Context.sample : Context ℚ where
  tolerances :=
    { primal := 0, dual := 0, pivot := 1 / 10 ^ 9, ratioPivot := 0
      factorizationPivot := 1 / 10 ^ 10, drop := 0, harris := 1 }
  policy := {}
  rowSelection := .markowitz (1 / 10)

theorem Context.sample_exact :
  Context.sample.Exact
  where
    drop := rfl
    factorizationPivot := by
      change (0 : ℚ) < 1 / 10 ^ 10
      norm_num
    rowSelection := by
      change (0 : ℚ) < 1 / 10
      norm_num

namespace ProductForm

variable {F : Type} [ExactScalar F] {n : ℕ} {context : Context F} {form : ProductForm F}
  {columns : Fin n → Fin n → F}

/-- The file of the form takes the given columns to the unit vectors. -/
structure IsInverse (form : ProductForm F) (columns : Fin n → Fin n → F) : Prop where
  size : form.nrRows + 1 = n
  fits : form.file.Fits n
  mulVec : ∀ i, form.file.matrix n *ᵥ columns i = Pi.single i 1

/-! ### Inverses -/

/-- The matrix of the file is a left inverse of the matrix with the given columns. -/
theorem IsInverse.matrix_mul (h : form.IsInverse columns) :
  form.file.matrix n * (of columns)ᵀ = 1
  := by
  ext i j
  have hcolumn := congrFun (h.mulVec j) i
  rw [one_apply, ← Pi.single_apply, ← hcolumn]
  rfl

/-- It is also a right inverse. -/
theorem IsInverse.mul_matrix (h : form.IsInverse columns) :
  (of columns)ᵀ * form.file.matrix n = 1
  := mul_eq_one_comm.mp h.matrix_mul

/-- A vector is the combination of the columns with the entries of the solved vector. -/
theorem IsInverse.sum_smul (h : form.IsInverse columns) (x : Fin n → F) :
  ∑ i, (form.file.matrix n *ᵥ x) i • columns i = x
  := by
  have hx : (of columns)ᵀ *ᵥ (form.file.matrix n *ᵥ x) = x := by
    rw [mulVec_mulVec, h.mul_matrix, one_mulVec]
  rw [mulVec_eq_sum] at hx
  simp only [transpose_transpose, op_smul_eq_smul] at hx
  apply hx

/-- The columns are distinct. -/
theorem IsInverse.injective (h : form.IsInverse columns) :
  Function.Injective columns
  := by
  intro i j hij
  have hunit : (Pi.single i 1 : Fin n → F) = Pi.single j 1 := by
    rw [← h.mulVec i, hij, h.mulVec j]
  by_contra hne
  have hi := congrFun hunit i
  rw [Pi.single_eq_same, Pi.single_eq_of_ne hne] at hi
  apply one_ne_zero hi

/-- The entries of a solved vector depend on the columns alone. -/
theorem IsInverse.solved_eq {other : ProductForm F} {others : Fin n → Fin n → F}
    (h : form.IsInverse columns) (hother : other.IsInverse others) (σ : Fin n → Fin n)
    (hσ : ∀ i, columns i = others (σ i)) (x : Fin n → F) (i : Fin n) :
  (form.file.matrix n *ᵥ x) i = (other.file.matrix n *ᵥ x) (σ i)
  := by
  have hinjective : Function.Injective σ := by
    intro i j hij
    apply h.injective
    rw [hσ i, hσ j, hij]
  have hx : other.file.matrix n *ᵥ x
      = ∑ j, (form.file.matrix n *ᵥ x) j • Pi.single (σ j) (1 : F) := by
    nth_rewrite 1 [← h.sum_smul x]
    rw [mulVec_sum]
    apply Finset.sum_congr rfl
    intro j _
    rw [mulVec_smul, hσ, hother.mulVec]
  rw [hx, Finset.sum_apply, Finset.sum_eq_single i]
  · rw [Pi.smul_apply, Pi.single_eq_same, smul_eq_mul, mul_one]
  · intro j _ hj
    rw [Pi.smul_apply, Pi.single_eq_of_ne fun e => hj (hinjective e).symm, smul_zero]
  · intro hi
    cases hi (Finset.mem_univ i)

/-- Replacing a column changes the other entries of a solved vector by the multiple of the solved
new column that takes the entry at its place to zero. -/
theorem IsInverse.solved_update {later : ProductForm F} {i k : Fin n} {x : Fin n → F}
    (h : form.IsInverse columns) (hlater : later.IsInverse (Function.update columns i x))
    (hpivot : (form.file.matrix n *ᵥ x) i ≠ 0) (y : Fin n → F) (hk : k ≠ i) :
  (later.file.matrix n *ᵥ y) k = (form.file.matrix n *ᵥ y) k
    - (form.file.matrix n *ᵥ y) i / (form.file.matrix n *ᵥ x) i * (form.file.matrix n *ᵥ x) k
  := by
  set c := (form.file.matrix n *ᵥ y) i / (form.file.matrix n *ᵥ x) i with hc
  have hsolved (j : Fin n) : (form.file.matrix n *ᵥ (y - c • x)) j
      = (form.file.matrix n *ᵥ y) j - c * (form.file.matrix n *ᵥ x) j := by
    rw [mulVec_sub, mulVec_smul]
    rfl
  have hzero : (form.file.matrix n *ᵥ (y - c • x)) i = 0 := by
    rw [hsolved, hc, div_mul_cancel₀ _ hpivot, sub_self]
  -- The rest of the vector is a combination of the columns that stay.
  have hlast : (later.file.matrix n *ᵥ (y - c • x)) k
      = (form.file.matrix n *ᵥ (y - c • x)) k := by
    nth_rewrite 1 [← h.sum_smul (y - c • x)]
    rw [mulVec_sum, Finset.sum_apply, Finset.sum_eq_single k]
    · have hcolumn := hlater.mulVec k
      rw [Function.update_of_ne hk] at hcolumn
      rw [mulVec_smul, hcolumn, Pi.smul_apply, Pi.single_eq_same, smul_eq_mul, mul_one]
    · intro j _ hj
      by_cases hi : j = i
      · rw [hi, hzero, zero_smul, mulVec_zero]
        rfl
      · have hcolumn := hlater.mulVec j
        rw [Function.update_of_ne hi] at hcolumn
        rw [mulVec_smul, hcolumn, Pi.smul_apply, Pi.single_eq_of_ne hj.symm, smul_zero]
    · intro hnot
      cases hnot (Finset.mem_univ k)
  have hnew := hlater.mulVec i
  rw [Function.update_self] at hnew
  rw [mulVec_sub, mulVec_smul, hnew, hsolved, Pi.sub_apply, Pi.smul_apply,
    Pi.single_eq_of_ne hk, smul_zero, sub_zero] at hlast
  apply hlast

/-! ### Solving -/

/-- Solving with the form. -/
theorem ftran?_eq (hdrop : context.tolerances.drop = 0) (hsize : form.nrRows + 1 = n)
    (hfits : form.file.Fits n) {vector : DenseVector F} (hv : vector.length = n) :
  ∃ solved, form.ftran? context vector = some solved ∧ solved.length = n
    ∧ solved.entries n = form.file.matrix n *ᵥ vector.entries n
  := by
  obtain ⟨solved, hsolved, hlength, hentries⟩ := hfits.applyRight?_eq hv
  refine ⟨solved, ?_, hlength, hentries⟩
  unfold ftran?
  rw [if_pos (by rw [hv, hsize]), hsolved, Option.map_some]
  unfold rounded
  rw [hdrop, DenseVector.roundRelative_zero]

/-- The column at a position is solved to the unit vector of the position. -/
theorem IsInverse.ftran?_column (h : form.IsInverse columns)
    (hdrop : context.tolerances.drop = 0) {i : Fin n} {column : DenseVector F}
    (hlength : column.length = n) (hcolumn : column.entries n = columns i) :
  ∃ unit, DenseVector.unit? i.val n = some unit ∧ form.ftran? context column = some unit
  := by
  obtain ⟨unit, hunit, hunitLength, hunitEntries⟩ := DenseVector.unit?_eq (F := F) i
  obtain ⟨solved, hsolved, hsolvedLength, hsolvedEntries⟩ :=
    ftran?_eq hdrop h.size h.fits hlength
  refine ⟨unit, hunit, ?_⟩
  rw [hsolved, Option.some_inj]
  apply DenseVector.eq_of_entries_eq hsolvedLength hunitLength
  rw [hsolvedEntries, hunitEntries, hcolumn, h.mulVec]

/-- Solving with the transposed form. -/
theorem btran?_eq (hdrop : context.tolerances.drop = 0) (hsize : form.nrRows + 1 = n)
    (hfits : form.file.Fits n) {vector : DenseVector F} (hv : vector.length = n) :
  ∃ solved, form.btran? context vector = some solved ∧ solved.length = n
    ∧ solved.entries n = vector.entries n ᵥ* form.file.matrix n
  := by
  obtain ⟨solved, hsolved, hlength, hentries⟩ := hfits.applyLeft?_eq hv
  refine ⟨solved, ?_, hlength, hentries⟩
  unfold btran?
  rw [if_pos (by rw [hv, hsize]), hsolved, Option.map_some]
  unfold rounded
  rw [hdrop, DenseVector.roundRelative_zero]

/-- Solving with the transposed form for two vectors. -/
theorem btranDouble?_eq (hdrop : context.tolerances.drop = 0) (hsize : form.nrRows + 1 = n)
    (hfits : form.file.Fits n) {first second : DenseVector F} (hfirst : first.length = n)
    (hsecond : second.length = n) :
  ∃ a b, form.btranDouble? context first second = some (a, b) ∧ a.length = n ∧ b.length = n
    ∧ a.entries n = first.entries n ᵥ* form.file.matrix n
    ∧ b.entries n = second.entries n ᵥ* form.file.matrix n
  := by
  obtain ⟨a, ha, haLength, haEntries⟩ := hfits.applyLeft?_eq hfirst
  obtain ⟨b, hb, hbLength, hbEntries⟩ := hfits.applyLeft?_eq hsecond
  refine ⟨a, b, ?_, haLength, hbLength, haEntries, hbEntries⟩
  unfold btranDouble?
  rw [if_pos ⟨by rw [hfirst, hsize], by rw [hsecond, hsize]⟩, EtaFile.applyLeftDouble?_eq, ha, hb]
  simp [rounded, hdrop]

/-! ### Updates -/

/-- What staging an update does, when it is accepted and when it is refused. -/
theorem prepareUpdate?_eq (hsize : form.nrRows + 1 = n) {row entering : ℕ}
    {column : DenseVector F} {prepared : Outcome (ProductForm F) (Except Error F)}
    (h : form.prepareUpdate? context row entering column = some prepared) :
  ∃ (i : Fin n) (staged : EtaColumn F), i.val = row ∧ row ≠ 0 ∧ column.length = n
    ∧ staged.Fits n ∧ staged.pivotRow = row ∧ staged.pivot = column.entries n i
    ∧ staged.entries n = column.entries n
    ∧ ((prepared.result = .ok (column.entries n i)
          ∧ context.tolerances.pivot ≤ |column.entries n i|
          ∧ prepared.state = { form with file := form.file.stage staged })
        ∨ ((∃ e, prepared.result = .error e)
          ∧ prepared.state = { form with file := form.file.discardStaged }))
  := by
  unfold prepareUpdate? at h
  split at h
  · cases h
  · rename_i hvalid
    simp only [not_or, not_lt, not_not] at hvalid
    obtain ⟨hne, hle, hlength⟩ := hvalid
    have hlength : column.length = n := hlength.trans hsize
    have hlt : row < n := by omega
    obtain ⟨staged, hstaged, hfits, hpivotRow, -, hpivot, hentries⟩ :=
      EtaColumn.ofDense?_eq hlength ⟨row, hlt⟩ entering
    refine ⟨⟨row, hlt⟩, staged, rfl, hne, hlength, hfits, hpivotRow, hpivot, hentries, ?_⟩
    change (EtaColumn.ofDense? column row entering).bind _ = some prepared at h
    change EtaColumn.ofDense? column row entering = some staged at hstaged
    rw [hstaged, Option.bind_some, hpivot] at h
    dsimp only at h
    split at h
    · cases h
      apply Or.inr ⟨⟨_, rfl⟩, rfl⟩
    · rename_i hlarge
      cases h
      rw [ExactScalar.magnitude_eq_abs, not_lt] at hlarge
      apply Or.inl ⟨rfl, hlarge, rfl⟩

/-- Committing a staged column with a nonzero pivot.  The form inverts the columns with the
entering one, or its negation, in the pivot row. -/
theorem IsInverse.finishUpdate?_eq (h : form.IsInverse columns) {staged : EtaColumn F}
    {i : Fin n} {x : Fin n → F} (hfits : staged.Fits n) (hrow : staged.pivotRow = i.val)
    (hpivot : staged.pivot ≠ 0) (hx : form.file.matrix n *ᵥ x = staged.entries n) (flip : Bool) :
  ∃ finished, finishUpdate? flip { form with file := form.file.stage staged } = some finished
    ∧ finished.result = true
    ∧ finished.state.IsInverse (Function.update columns i (if flip then -x else x))
  := by
  obtain ⟨committed, inverse, hcommit, -, hcommitted, hcolumns, -, hunit, hkeep⟩ :=
    h.fits.commit?_stage hfits hpivot flip
  have hi : hfits.row = i := Fin.ext hrow
  rw [hi] at hunit hkeep
  have hstaged := form.file.staged_stage staged
  rw [EtaFile.commit?_of_staged hstaged] at hcommit
  obtain ⟨other, hother, hpair⟩ := Option.map_eq_some_iff.mp hcommit
  obtain rfl := (Prod.mk.inj hpair).2
  have hfinished : finishUpdate? flip { form with file := form.file.stage staged } = _ :=
    finishUpdate?_of_staged hstaged flip
  rw [hother, Option.map_some] at hfinished
  refine ⟨_, hfinished, rfl, h.size, hcommitted, ?_⟩
  intro j
  by_cases hj : j = i
  · subst hj
    rw [Function.update_self]
    apply hunit x hx
  · rw [Function.update_of_ne hj]
    change ((form.file.stage staged).append other).matrix n *ᵥ columns j = _
    rw [hkeep, h.mulVec]
    rw [h.mulVec, Pi.single_eq_of_ne fun e => hj e.symm]

/-- An accepted update can be committed unless its pivot is zero.  The form inverts the columns with
the entering one, or its negation, in the pivot row afterwards. -/
theorem IsInverse.update (h : form.IsInverse columns) {row entering : ℕ} {x : Fin n → F}
    {column : DenseVector F} (hx : form.file.matrix n *ᵥ x = column.entries n)
    {prepared : Outcome (ProductForm F) (Except Error F)} {pivot : F}
    (hprepared : form.prepareUpdate? context row entering column = some prepared)
    (hok : prepared.result = .ok pivot) (flip : Bool) :
  ∃ i : Fin n, i.val = row ∧ row ≠ 0 ∧ pivot = column.entries n i
    ∧ (pivot ≠ 0 → ∃ finished, prepared.state.finishUpdate? flip = some finished)
    ∧ ∀ finished, prepared.state.finishUpdate? flip = some finished →
      pivot ≠ 0 ∧ finished.result = true
        ∧ finished.state.IsInverse (Function.update columns i (if flip then -x else x))
  := by
  obtain ⟨i, staged, hi, hne, -, hfits, hrow, hpivot, hentries, hcases⟩ :=
    prepareUpdate?_eq h.size hprepared
  rcases hcases with ⟨hresult, -, hstate⟩ | ⟨⟨e, hresult⟩, -⟩
  · rw [hok] at hresult
    cases hresult
    have hcommit (hnonzero : staged.pivot ≠ 0) :=
      h.finishUpdate?_eq hfits (hrow.trans hi.symm) hnonzero (hx.trans hentries.symm) flip
    rw [← hpivot, hstate]
    refine ⟨i, hi, hne, hpivot, ?_, ?_⟩
    · intro hnonzero
      obtain ⟨finished, hfinished, -⟩ := hcommit hnonzero
      use finished
    · intro finished hfinished
      have hnonzero : staged.pivot ≠ 0 := by
        rintro hzero
        have hstaged := form.file.staged_stage staged
        change finishUpdate? flip { form with file := form.file.stage staged } = _ at hfinished
        rw [finishUpdate?_of_staged hstaged] at hfinished
        obtain ⟨inverse, hinverse, -⟩ := Option.map_eq_some_iff.mp hfinished
        have hpivot := EtaColumn.pivot_of_invert? hinverse
        cases flip <;> simp [EtaColumn.negate, hzero] at hpivot
      obtain ⟨other, hother, hdone, hinverse⟩ := hcommit hnonzero
      rw [hfinished, Option.some_inj] at hother
      subst hother
      exact ⟨hnonzero, hdone, hinverse⟩
  · rw [hok] at hresult
    cases hresult

/-! ### Factorizations -/

/-- The columns of the variables at some positions. -/
def basisColumns (model : Model F) (positions : List ℕ) :
    Fin (model.nrRows + 1) → Fin (model.nrRows + 1) → F :=
  fun i => model.vector (positions[i.val]?.getD 0)

/-- Another variable at a position. -/
theorem basisColumns_set {model : Model F} {positions : List ℕ} {i : Fin (model.nrRows + 1)}
    (hlength : positions.length = model.nrRows + 1) (v : ℕ) :
  basisColumns model (positions.set i.val v)
    = Function.update (basisColumns model positions) i (model.vector v)
  := by
  funext j
  unfold basisColumns
  by_cases hj : j = i
  · subst hj
    have hlt : j.val < positions.length := by
      rw [hlength]
      apply j.isLt
    rw [Function.update_self, List.getElem?_set_self hlt]
    rfl
  · rw [Function.update_of_ne hj, List.getElem?_set_ne fun e => hj (Fin.ext e.symm)]

omit [ExactScalar F] in
/-- Factorizing starts over with a placed basis. -/
theorem factorize?_of_placed [Scalar F] {context : Context F} {form : ProductForm F}
    {model : Model F} {indices : List ℕ} {placed : PlacedBasis F}
    (hsize : form.nrRows = model.nrRows)
    (hplaced : PlacedBasis.of? context model indices = some placed) :
  ∃ outcome, form.factorize? context model indices = some outcome
    ∧ outcome.result = ⟨placed.positions, placed.singular⟩ ∧ outcome.state.file = placed.file
    ∧ outcome.state.nrRows = form.nrRows ∧ outcome.state.pivots = 0
    ∧ outcome.state.forced = false
  := by
  unfold factorize?
  rw [if_neg (not_not.mpr hsize.symm), hplaced]
  exact ⟨_, rfl, rfl, rfl, rfl, rfl, rfl⟩

/-- Factorizing distinct variables. -/
theorem factorize?_eq {model : Model F} {indices : List ℕ} (hexact : context.Exact)
    (hsize : form.nrRows = model.nrRows) (hnodup : indices.Nodup)
    (hindices : ∀ v ∈ indices, 0 < v ∧ v < model.nrVariables) :
  ∃ outcome, form.factorize? context model indices = some outcome
    ∧ outcome.result.positions.length = model.nrRows + 1
    ∧ outcome.result.positions[0]? = some 0
    ∧ (∀ v ∈ outcome.result.positions, v < model.nrVariables)
    ∧ outcome.state.IsInverse (basisColumns model outcome.result.positions)
    ∧ outcome.state.forced = false
    ∧ ∀ v ∈ indices, v ∈ outcome.result.positions ∨ v ∈ outcome.result.singular
  := by
  obtain ⟨placed, hplaced, hlength, hdummy, hfits, -, hinvert, hkept⟩ :=
    PlacedBasis.of?_eq hexact.drop hexact.factorizationPivot hexact.rowSelection hnodup hindices
  obtain ⟨outcome, houtcome, hresult, hfile, hrows, -, hforced⟩ :=
    factorize?_of_placed hsize hplaced
  rw [← hfile] at hfits hinvert
  refine ⟨outcome, houtcome, ?_⟩
  rw [hresult]
  refine ⟨hlength, hdummy, ?_, ⟨?_, hfits, ?_⟩, hforced, hkept⟩
  · intro v hv
    obtain ⟨i, hi⟩ := List.mem_iff_getElem?.mp hv
    obtain ⟨hlt, -⟩ := List.getElem?_eq_some_iff.mp hi
    apply (hinvert ⟨i, by rw [← hlength]; apply hlt⟩ v hi).1
  · rw [hrows, hsize]
  · intro i
    have hi : i.val < placed.positions.length := by
      rw [hlength]
      apply i.isLt
    apply (hinvert i _ _).2
    rw [List.getElem?_eq_getElem hi]
    rfl

end ProductForm

end RevisedSimplex
