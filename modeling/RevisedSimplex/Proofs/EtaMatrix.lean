import RevisedSimplex.EtaFile
import RevisedSimplex.Proofs.Entries
import Mathlib.Data.Matrix.Basis
import Mathlib.Tactic.FieldSimp

/-!
# Matrices of eta files

An eta column is read as the identity matrix with one column replaced, and an eta file as the
product of these matrices, the last committed one on the left.

* `applyRight?` multiplies the matrix with a column vector, and `applyLeft?` a row vector with the
  matrix.
* The matrix of a committed column takes the staged column to the unit vector of its pivot row,
  and every other unit vector to itself.
* A vector that is zero in all pivot rows of a file is left unchanged by the file.
-/

open Matrix

namespace RevisedSimplex

variable {F : Type} [ExactScalar F] {n : ℕ}

/-! ### Columns -/

namespace EtaColumn

/-- All rows of the column lie below `n`, and the pivot row is not among the other rows. -/
structure Fits (n : ℕ) (column : EtaColumn F) : Prop where
  pivotRow_lt : column.pivotRow < n
  offPivot : ∀ entry ∈ column.offPivot, entry.1 < n ∧ entry.1 ≠ column.pivotRow

/-- The pivot row of a column that fits. -/
def Fits.row {column : EtaColumn F} (h : column.Fits n) : Fin n :=
  ⟨column.pivotRow, h.pivotRow_lt⟩

omit [ExactScalar F] in
theorem Fits.off_lt {column : EtaColumn F} (h : column.Fits n) :
  ∀ entry ∈ column.offPivot, entry.1 < n
  := fun entry hentry => (h.offPivot entry hentry).1

/-- The entries of the column, that in the pivot row included. -/
def entries (n : ℕ) (column : EtaColumn F) : Fin n → F :=
  fun i => if i.val = column.pivotRow then column.pivot else column.offPivot.entries n i

/-- The identity matrix with the column in the place of its pivot row. -/
def matrix (n : ℕ) (column : EtaColumn F) : Matrix (Fin n) (Fin n) F :=
  of fun i j => if j.val = column.pivotRow then column.entries n i else (1 : Matrix _ _ F) i j

/-- The entries off the pivot row are zero in the pivot row. -/
theorem Fits.offPivot_entries_row {column : EtaColumn F} (h : column.Fits n) :
  column.offPivot.entries n h.row = 0
  := by
  apply SparseVector.entries_eq_zero
  intro entry hentry hrow
  cases (h.offPivot entry hentry).2 hrow

theorem Fits.entries_row {column : EtaColumn F} (h : column.Fits n) :
  column.entries n h.row = column.pivot
  := if_pos rfl

/-- The entries as those off the pivot row and the pivot. -/
theorem Fits.entries_eq_add {column : EtaColumn F} (h : column.Fits n) :
  column.entries n = column.offPivot.entries n + Pi.single h.row column.pivot
  := by
  funext i
  by_cases hi : i = h.row
  · subst hi
    rw [h.entries_row, Pi.add_apply, h.offPivot_entries_row, Pi.single_eq_same, zero_add]
  · have hval : i.val ≠ column.pivotRow := fun e => hi (Fin.ext e)
    rw [Pi.add_apply, Pi.single_eq_of_ne hi, add_zero, entries, if_neg hval]

/-- The matrix times a vector moves the entry of the pivot row along the column. -/
theorem Fits.matrix_mulVec {column : EtaColumn F} (h : column.Fits n) (x : Fin n → F) :
  column.matrix n *ᵥ x = x h.row • column.entries n + Function.update x h.row 0
  := by
  funext i
  have hterm (j : Fin n) : column.matrix n i j * x j
      = (if j = h.row then column.entries n i * x j else 0)
        + (if i = j then Function.update x h.row 0 j else 0) := by
    by_cases hj : j = h.row
    · subst hj
      simp [matrix, Fits.row]
    · have hval : j.val ≠ column.pivotRow := fun e => hj (Fin.ext e)
      simp [matrix, hval, hj, one_apply]
  simp only [mulVec, dotProduct, hterm, Finset.sum_add_distrib, Finset.sum_ite_eq,
    Finset.sum_ite_eq', Finset.mem_univ, if_true, Pi.add_apply, Pi.smul_apply, smul_eq_mul]
  rw [mul_comm]

/-- A vector times the matrix has the inner product with the column in the pivot row. -/
theorem Fits.vecMul_matrix {column : EtaColumn F} (h : column.Fits n) (x : Fin n → F) :
  x ᵥ* column.matrix n = Function.update x h.row (x ⬝ᵥ column.entries n)
  := by
  funext j
  by_cases hj : j = h.row
  · subst hj
    rw [Function.update_self]
    simp [vecMul, dotProduct, matrix, Fits.row]
  · have hval : j.val ≠ column.pivotRow := fun e => hj (Fin.ext e)
    rw [Function.update_of_ne hj]
    simp [vecMul, dotProduct, matrix, hval, one_apply]

/-- Unit vectors of other rows are left unchanged. -/
theorem Fits.matrix_mulVec_of_zero {column : EtaColumn F} (h : column.Fits n) {x : Fin n → F}
    (hx : x h.row = 0) :
  column.matrix n *ᵥ x = x
  := by
  rw [h.matrix_mulVec, hx, zero_smul, zero_add]
  apply Function.update_eq_self_iff.mpr hx.symm

/-! ### Multiplication -/

/-- Applying a column to a column vector. -/
theorem Fits.applyRight?_eq {column : EtaColumn F} (h : column.Fits n) {vector : DenseVector F}
    (hv : vector.length = n) :
  ∃ result, column.applyRight? vector = some result ∧ result.length = n
    ∧ result.entries n = column.matrix n *ᵥ vector.entries n
  := by
  have htheta := DenseVector.getElem?_eq_entries hv h.row
  unfold applyRight?
  change ∃ result, ((vector[h.row.val]?).bind _) = some result ∧ _
  rw [htheta]
  by_cases hzero : vector.entries n h.row = 0
  · use vector
    simp [hzero, hv, h.matrix_mulVec_of_zero hzero]
  · obtain ⟨moved, hmoved, hlength, hentries⟩ := SparseVector.foldlM_modify?_eq
      (vector.entries n h.row) (fun value x => x + vector.entries n h.row * value)
      (fun _ _ => rfl) h.off_lt hv
    obtain ⟨result, hresult, hlen, hset⟩ :=
      DenseVector.set?_eq hlength h.row (vector.entries n h.row * column.pivot)
    use result
    constructor
    · simp only [Option.bind_some, beq_iff_eq, hzero, if_false, hmoved, Option.bind_eq_bind]
      apply hresult
    · constructor
      · apply hlen
      · rw [hset, hentries, h.matrix_mulVec, h.entries_eq_add]
        funext i
        by_cases hi : i = h.row
        · subst hi
          simp [h.offPivot_entries_row]
        · simp [Function.update_of_ne hi, Pi.single_eq_of_ne hi, add_comm]

/-- The inner product of a row vector with a column. -/
theorem Fits.inner?_eq {column : EtaColumn F} (h : column.Fits n) {vector : DenseVector F}
    (hv : vector.length = n) :
  column.inner? vector = some (vector.entries n ⬝ᵥ column.entries n)
  := by
  have hlast := DenseVector.getElem?_eq_entries hv h.row
  unfold inner?
  change (do
    let total ← column.offPivot.inner? vector
    let last ← vector[h.row.val]?
    some (total + last * column.pivot)) = _
  rw [SparseVector.inner?_eq h.off_lt hv, hlast, h.entries_eq_add, dotProduct_add,
    dotProduct_single, dotProduct_comm]
  rfl

/-- Applying a column to a row vector. -/
theorem Fits.applyLeft?_eq {column : EtaColumn F} (h : column.Fits n) {vector : DenseVector F}
    (hv : vector.length = n) :
  ∃ result, column.applyLeft? vector = some result ∧ result.length = n
    ∧ result.entries n = vector.entries n ᵥ* column.matrix n
  := by
  obtain ⟨result, hresult, hlength, hentries⟩ :=
    DenseVector.set?_eq hv h.row (vector.entries n ⬝ᵥ column.entries n)
  use result
  constructor
  · unfold applyLeft?
    rw [h.inner?_eq hv]
    apply hresult
  · constructor
    · apply hlength
    · rw [hentries, h.vecMul_matrix]

/-! ### Making columns -/

/-- A dense column with a pivot row. -/
theorem ofDense?_eq {dense : DenseVector F} (hd : dense.length = n) (row : Fin n) (owner : ℕ) :
  ∃ column, ofDense? dense row.val owner = some column ∧ column.Fits n
    ∧ column.pivotRow = row.val ∧ column.owner = owner
    ∧ column.pivot = dense.entries n row ∧ column.entries n = dense.entries n
  := by
  unfold ofDense?
  rw [DenseVector.getElem?_eq_entries hd row]
  refine ⟨_, rfl, ⟨row.isLt, ?_⟩, rfl, rfl, rfl, ?_⟩
  · intro entry hentry
    obtain ⟨hmem, hne⟩ := List.mem_filter.mp hentry
    obtain ⟨hget, -⟩ := SparseVector.mem_nonzeros_iff.mp hmem
    obtain ⟨hlt, -⟩ := List.getElem?_eq_some_iff.mp hget
    constructor
    · rw [← hd]
      apply hlt
    · simpa using hne
  · funext i
    unfold entries
    split
    · rename_i hi
      rw [Fin.ext hi]
    · rename_i hi
      rw [SparseVector.entries_filter, SparseVector.entries_nonzeros]
      intro entry _ hkeep hpos
      simp only [bne_eq_false_iff_eq] at hkeep
      cases hi (hpos.symm.trans hkeep)

/-- An ordered sparse column with a pivot row. -/
theorem ofSparse?_eq {sparse : SparseVector F} (hordered : sparse.Ordered)
    (hbound : ∀ entry ∈ sparse, entry.1 < n) (row : Fin n) (owner : ℕ) :
  ∃ column, ofSparse? sparse row.val owner = some column ∧ column.Fits n
    ∧ column.pivotRow = row.val ∧ column.owner = owner
    ∧ column.pivot = SparseVector.entries n sparse row
    ∧ column.entries n = SparseVector.entries n sparse
  := by
  unfold ofSparse?
  rw [if_pos hordered]
  have hpivot := SparseVector.valueAt?_eq_entries hordered.nodup row
  refine ⟨_, rfl, ⟨row.isLt, ?_⟩, rfl, rfl, hpivot, ?_⟩
  · intro entry hentry
    obtain ⟨hmem, hne⟩ := List.mem_filter.mp hentry
    constructor
    · apply hbound entry hmem
    · simp only [Bool.and_eq_true, bne_iff_ne] at hne
      apply hne.1
  · funext i
    unfold entries
    split
    · rename_i hi
      rw [Fin.ext hi, ← hpivot]
    · rename_i hi
      apply SparseVector.entries_filter
      intro entry _ hkeep hpos
      simp only [Bool.and_eq_false_iff, bne_eq_false_iff_eq, Bool.not_eq_false',
        beq_iff_eq] at hkeep
      rcases hkeep with hrow | hzero
      · cases hi (hpos.symm.trans hrow)
      · apply hzero

/-! ### Committing columns -/

/-- The opposite column. -/
theorem Fits.negate {column : EtaColumn F} (h : column.Fits n) :
  column.negate.Fits n
  := by
  constructor
  · apply h.pivotRow_lt
  · intro entry hentry
    obtain ⟨original, horiginal, rfl⟩ := List.mem_map.mp hentry
    apply h.offPivot original horiginal

theorem entries_negate (column : EtaColumn F) :
  column.negate.entries n = -column.entries n
  := by
  funext i
  rw [Pi.neg_apply]
  by_cases hi : i.val = column.pivotRow
  · simp [entries, negate, hi]
  · simp only [entries, negate, hi, if_false]
    rw [SparseVector.entries_map (-1) (fun x => -x) (fun x => (neg_one_mul x).symm)]
    simp

/-- A column with a nonzero pivot, inverted. -/
theorem Fits.invert?_eq {column : EtaColumn F} (h : column.Fits n) (hpivot : column.pivot ≠ 0) :
  ∃ inverse, column.invert? = some inverse ∧ inverse.Fits n
    ∧ inverse.pivotRow = column.pivotRow ∧ inverse.owner = column.owner
    ∧ inverse.entries n
      = Function.update (-(column.pivot⁻¹ • column.entries n)) h.row column.pivot⁻¹
  := by
  unfold invert?
  rw [if_neg (by simpa using hpivot)]
  refine ⟨_, rfl, ⟨h.pivotRow_lt, ?_⟩, rfl, rfl, ?_⟩
  · intro entry hentry
    obtain ⟨original, horiginal, rfl⟩ := List.mem_map.mp hentry
    apply h.offPivot original horiginal
  · funext i
    by_cases hi : i = h.row
    · subst hi
      simp [entries, Fits.row]
    · have hval : i.val ≠ column.pivotRow := fun e => hi (Fin.ext e)
      simp only [entries, hval, if_false, Function.update_of_ne hi]
      rw [SparseVector.entries_map (-column.pivot⁻¹) (fun x => x * -(1 / column.pivot))
        (fun x => by rw [one_div, mul_comm])]
      simp [entries, hval]

/-- The inverse takes the column to the unit vector of its pivot row. -/
theorem Fits.matrix_inverse_mulVec {column inverse : EtaColumn F} (h : column.Fits n)
    (hpivot : column.pivot ≠ 0) (hfits : inverse.Fits n)
    (hrow : inverse.pivotRow = column.pivotRow)
    (hentries : inverse.entries n
      = Function.update (-(column.pivot⁻¹ • column.entries n)) h.row column.pivot⁻¹) :
  inverse.matrix n *ᵥ column.entries n = Pi.single h.row 1
  := by
  have hsame : hfits.row = h.row := Fin.ext hrow
  rw [hfits.matrix_mulVec, hsame, h.entries_row, hentries]
  funext i
  by_cases hi : i = h.row
  · subst hi
    simp [hpivot]
  · simp [Function.update_of_ne hi, Pi.single_eq_of_ne hi, hpivot]

end EtaColumn

/-! ### Files -/

namespace EtaFile

/-- All committed columns fit. -/
def Fits (n : ℕ) (file : EtaFile F) : Prop :=
  ∀ column ∈ file.columns, column.Fits n

/-- The pivot rows of the committed columns. -/
def pivotRows (file : EtaFile F) : List ℕ :=
  file.columns.map EtaColumn.pivotRow

/-- The product of the matrices of the committed columns, the last one on the left. -/
def matrix (n : ℕ) (file : EtaFile F) : Matrix (Fin n) (Fin n) F :=
  (file.columns.reverse.map (EtaColumn.matrix n)).prod

omit [ExactScalar F] in
theorem fits_empty :
  ({} : EtaFile F).Fits n
  := fun _ h => by cases h

/-- A file is the product of its last column and of the columns before it. -/
theorem matrix_of_columns_append {file earlier : EtaFile F} {column : EtaColumn F}
    (h : file.columns = earlier.columns ++ [column]) :
  file.matrix n = column.matrix n * earlier.matrix n
  := by
  unfold matrix
  rw [h, List.reverse_append, List.map_append, List.prod_append]
  simp

omit [ExactScalar F] in
theorem Fits.append {file earlier : EtaFile F} {column : EtaColumn F} (hearlier : earlier.Fits n)
    (hcolumn : column.Fits n) (h : file.columns = earlier.columns ++ [column]) :
  file.Fits n
  := by
  intro other hother
  rw [h] at hother
  rcases List.mem_append.mp hother with hmem | hmem
  · apply hearlier other hmem
  · rw [List.mem_singleton.mp hmem]
    apply hcolumn

omit [ExactScalar F] in
theorem Fits.stage {file : EtaFile F} (h : file.Fits n) (column : EtaColumn F) :
  (file.stage column).Fits n
  := by
  unfold Fits
  rw [columns_stage]
  apply h

omit [ExactScalar F] in
theorem Fits.discardStaged {file : EtaFile F} (h : file.Fits n) :
  file.discardStaged.Fits n
  := by
  unfold Fits
  rw [columns_discardStaged]
  apply h

/-- Columns that are applied one after the other to a column vector. -/
theorem foldlM_applyRight?_eq :
    ∀ {columns : List (EtaColumn F)} {vector : DenseVector F},
      (∀ column ∈ columns, column.Fits n) → vector.length = n →
      ∃ result, columns.foldlM (fun v column => column.applyRight? v) vector = some result
        ∧ result.length = n
        ∧ result.entries n
          = (columns.reverse.map (EtaColumn.matrix n)).prod *ᵥ vector.entries n
  | [], vector, _, hv => by
      use vector, rfl, hv
      simp
  | column :: columns, vector, hfits, hv => by
      obtain ⟨hcolumn, hcolumns⟩ := List.forall_mem_cons.mp hfits
      obtain ⟨next, hnext, hlength, hentries⟩ := hcolumn.applyRight?_eq hv
      obtain ⟨result, hresult, hlen, hprod⟩ := foldlM_applyRight?_eq hcolumns hlength
      use result
      constructor
      · rw [List.foldlM_cons, hnext]
        apply hresult
      · constructor
        · apply hlen
        · rw [hprod, hentries, mulVec_mulVec, List.reverse_cons, List.map_append,
            List.prod_append]
          simp

/-- Columns that are applied one after the other to a row vector. -/
theorem foldlM_applyLeft?_eq :
    ∀ {columns : List (EtaColumn F)} {vector : DenseVector F},
      (∀ column ∈ columns, column.Fits n) → vector.length = n →
      ∃ result, columns.foldlM (fun v column => column.applyLeft? v) vector = some result
        ∧ result.length = n
        ∧ result.entries n = vector.entries n ᵥ* (columns.map (EtaColumn.matrix n)).prod
  | [], vector, _, hv => by
      use vector, rfl, hv
      simp
  | column :: columns, vector, hfits, hv => by
      obtain ⟨hcolumn, hcolumns⟩ := List.forall_mem_cons.mp hfits
      obtain ⟨next, hnext, hlength, hentries⟩ := hcolumn.applyLeft?_eq hv
      obtain ⟨result, hresult, hlen, hprod⟩ := foldlM_applyLeft?_eq hcolumns hlength
      use result
      constructor
      · rw [List.foldlM_cons, hnext]
        apply hresult
      · constructor
        · apply hlen
        · rw [hprod, hentries, vecMul_vecMul, List.map_cons, List.prod_cons]

/-- Applying a file to a column vector. -/
theorem Fits.applyRight?_eq {file : EtaFile F} (h : file.Fits n) {vector : DenseVector F}
    (hv : vector.length = n) :
  ∃ result, file.applyRight? vector = some result ∧ result.length = n
    ∧ result.entries n = file.matrix n *ᵥ vector.entries n
  := by
  rw [applyRight?_eq_foldlM]
  apply foldlM_applyRight?_eq h hv

/-- Applying a file to a row vector. -/
theorem Fits.applyLeft?_eq {file : EtaFile F} (h : file.Fits n) {vector : DenseVector F}
    (hv : vector.length = n) :
  ∃ result, file.applyLeft? vector = some result ∧ result.length = n
    ∧ result.entries n = vector.entries n ᵥ* file.matrix n
  := by
  rw [applyLeft?_eq_foldlM]
  apply foldlM_applyLeft?_eq (fun column hcolumn => h column (List.mem_reverse.mp hcolumn)) hv

/-- Vectors that are zero in all pivot rows are left unchanged. -/
theorem Fits.matrix_mulVec_of_zero {file : EtaFile F} (h : file.Fits n) {x : Fin n → F}
    (hx : ∀ i : Fin n, i.val ∈ file.pivotRows → x i = 0) :
  file.matrix n *ᵥ x = x
  := by
  unfold matrix
  have hcolumns : ∀ column ∈ file.columns.reverse, column.matrix n *ᵥ x = x := by
    intro column hcolumn
    have hmem := List.mem_reverse.mp hcolumn
    apply (h column hmem).matrix_mulVec_of_zero
    apply hx
    apply List.mem_map_of_mem hmem
  revert hcolumns
  generalize file.columns.reverse = columns
  intro hcolumns
  induction columns with
  | nil => simp
  | cons column columns ih =>
      obtain ⟨hcolumn, hrest⟩ := List.forall_mem_cons.mp hcolumns
      rw [List.map_cons, List.prod_cons, ← mulVec_mulVec, ih hrest, hcolumn]

/-- Unit vectors of rows without a pivot are left unchanged. -/
theorem Fits.matrix_mulVec_single {file : EtaFile F} (h : file.Fits n) {i : Fin n}
    (hi : i.val ∉ file.pivotRows) :
  file.matrix n *ᵥ Pi.single i 1 = Pi.single i 1
  := by
  apply h.matrix_mulVec_of_zero
  intro j hj
  rw [Pi.single_eq_of_ne]
  rintro rfl
  apply hi hj

/-- Committing a staged column with a nonzero pivot.  The matrix of the committed column takes
the staged column, or its negation if that was asked for, to the unit vector of the pivot row. -/
theorem commit?_eq {file : EtaFile F} {column : EtaColumn F} (hstaged : file.staged = some column)
    (h : column.Fits n) (hpivot : column.pivot ≠ 0) (flip : Bool) :
  ∃ committed : EtaFile F, ∃ inverse : EtaColumn F,
    file.commit? flip = some (true, committed)
      ∧ committed.staged = none ∧ committed.factorColumns = file.factorColumns
      ∧ committed.columns = file.columns ++ [inverse]
      ∧ inverse.Fits n ∧ inverse.pivotRow = column.pivotRow ∧ inverse.owner = column.owner
      ∧ inverse.matrix n *ᵥ (if flip then -column.entries n else column.entries n)
        = Pi.single h.row 1
  := by
  rw [commit?_of_staged hstaged]
  cases flip with
  | false =>
      obtain ⟨inverse, hinverse, hfits, hrow, howner, hentries⟩ := h.invert?_eq hpivot
      refine ⟨file.append inverse, inverse, ?_, file.staged_append inverse, rfl,
        file.columns_append inverse, hfits, hrow, howner, ?_⟩
      · rw [if_neg Bool.false_ne_true, hinverse]
        rfl
      · apply h.matrix_inverse_mulVec hpivot hfits hrow hentries
  | true =>
      have hnegate : column.negate.pivot ≠ 0 := neg_ne_zero.mpr hpivot
      obtain ⟨inverse, hinverse, hfits, hrow, howner, hentries⟩ := h.negate.invert?_eq hnegate
      refine ⟨file.append inverse, inverse, ?_, file.staged_append inverse, rfl,
        file.columns_append inverse, hfits, hrow, howner, ?_⟩
      · rw [if_pos rfl, hinverse]
        rfl
      · have hunit := h.negate.matrix_inverse_mulVec hnegate hfits hrow hentries
        rw [EtaColumn.entries_negate] at hunit
        apply hunit

/-- A file with one more column, made from a vector that the file takes to the staged entries.
It takes this vector, or its negation, to the unit vector of the pivot row, and agrees with the
file on the vectors that the file takes to one with a zero there. -/
theorem Fits.commit?_stage {file : EtaFile F} (hfile : file.Fits n) {column : EtaColumn F}
    (h : column.Fits n) (hpivot : column.pivot ≠ 0) (flip : Bool) :
  ∃ committed : EtaFile F, ∃ inverse : EtaColumn F,
    (file.stage column).commit? flip = some (true, committed)
      ∧ committed.staged = none ∧ committed.Fits n
      ∧ committed.columns = file.columns ++ [inverse] ∧ inverse.pivotRow = column.pivotRow
      ∧ (∀ x, file.matrix n *ᵥ x = column.entries n →
        committed.matrix n *ᵥ (if flip then -x else x) = Pi.single h.row 1)
      ∧ ∀ x, (file.matrix n *ᵥ x) h.row = 0 → committed.matrix n *ᵥ x = file.matrix n *ᵥ x
  := by
  obtain ⟨committed, inverse, hcommit, hstaged, -, hcolumns, hfits, hrow, -, hunit⟩ :=
    commit?_eq (file.staged_stage column) h hpivot flip
  rw [columns_stage] at hcolumns
  have hmatrix : committed.matrix n = inverse.matrix n * file.matrix n :=
    matrix_of_columns_append hcolumns
  refine ⟨committed, inverse, hcommit, hstaged, hfile.append hfits hcolumns, hcolumns, hrow, ?_, ?_⟩
  · intro x hx
    rw [hmatrix, ← mulVec_mulVec]
    cases flip with
    | false =>
        simp only [Bool.false_eq_true, if_false] at hunit ⊢
        rw [hx, hunit]
    | true =>
        simp only [if_true] at hunit ⊢
        rw [mulVec_neg, hx, hunit]
  · intro x hx
    rw [hmatrix, ← mulVec_mulVec]
    apply hfits.matrix_mulVec_of_zero
    rw [← hx]
    congr 1
    apply Fin.ext hrow

end EtaFile

end RevisedSimplex
