import RevisedSimplex.Proofs.EtaMatrix

/-!
# Shapes of eta files

Which vectors a file can be applied to depends on the rows of its columns alone.  Staging takes the
rows of a vector apart into a pivot row and the rows off it, and committing keeps them, so that a
column fits the vectors of a length as soon as it is made from one.  None of this asks anything of
the numbers.
-/

namespace RevisedSimplex

variable {F : Type} [Scalar F] {n : ℕ}

/-! ### Vectors -/

omit [Scalar F] in
/-- Replacing an entry of a vector that is long enough. -/
theorem DenseVector.exists_set? {vector : DenseVector F} (hv : vector.length = n) {position : ℕ}
    (hposition : position < n) (value : F) :
  ∃ result, vector.set? position value = some result ∧ result.length = n
  := by
  rw [← hv] at hposition
  refine ⟨List.set vector position value, ?_, ?_⟩
  · unfold set?
    rw [if_pos hposition]
  · rw [List.length_set, hv]

/-- The unit vector of a position below its size. -/
theorem DenseVector.exists_unit? {position : ℕ} (hposition : position < n) :
  ∃ unit : DenseVector F, unit? position n = some unit ∧ unit.length = n
  := exists_set? (length_zero n) hposition 1

omit [Scalar F] in
/-- Changing an entry of a vector that is long enough. -/
theorem DenseVector.exists_modify? {vector : DenseVector F} (hv : vector.length = n)
    {position : ℕ} (hposition : position < n) (change : F → F) :
  ∃ result, vector.modify? position change = some result ∧ result.length = n
  := by
  have hlt : position < vector.length := by
    rw [hv]
    apply hposition
  obtain ⟨result, hresult, hlength⟩ := exists_set? hv hposition (change vector[position])
  refine ⟨result, ?_, hlength⟩
  unfold modify?
  rw [List.getElem?_eq_getElem hlt, Option.bind_eq_bind, Option.bind_some, hresult]

omit [Scalar F] in
/-- Changing entries of a vector that is long enough, one after the other. -/
theorem SparseVector.exists_foldlM_modify? (change : F → F → F) {vector : SparseVector F}
    {dense : DenseVector F} (hbound : ∀ entry ∈ vector, entry.1 < n) (hd : dense.length = n) :
  ∃ result, vector.foldlM
      (fun (v : DenseVector F) entry => v.modify? entry.1 (change entry.2)) dense = some result
    ∧ result.length = n
  := by
  apply exists_foldlM (motive := fun v : DenseVector F => v.length = n) _ hd
  intro entry hentry v hv
  apply DenseVector.exists_modify? hv (hbound entry hentry)

omit [Scalar F] in
/-- Writing entries over those of a vector that is long enough. -/
theorem SparseVector.exists_scatter? {vector : SparseVector F} {target : DenseVector F}
    (hbound : ∀ entry ∈ vector, entry.1 < n) (ht : target.length = n) :
  ∃ result, vector.scatter? target = some result ∧ result.length = n
  := by
  apply exists_foldlM (motive := fun v : DenseVector F => v.length = n) _ ht
  intro entry hentry v hv
  apply DenseVector.exists_set? hv (hbound entry hentry)

/-- The dense vector of a sparse one of rows below its size. -/
theorem SparseVector.exists_toDense? {vector : SparseVector F}
    (hbound : ∀ entry ∈ vector, entry.1 < n) :
  ∃ dense, vector.toDense? n = some dense ∧ dense.length = n
  := exists_scatter? hbound (DenseVector.length_zero n)

/-- The inner product with a vector that is long enough. -/
theorem SparseVector.exists_inner? {vector : SparseVector F} {dense : DenseVector F}
    (hbound : ∀ entry ∈ vector, entry.1 < n) (hd : dense.length = n) :
  ∃ value, vector.inner? dense = some value
  := by
  have hfold : ∃ value, vector.inner? dense = some value ∧ True := by
    apply exists_foldlM _ trivial
    intro entry hentry total _
    have hlt := hbound entry hentry
    rw [← hd] at hlt
    rw [List.getElem?_eq_getElem hlt]
    exact ⟨_, rfl, trivial⟩
  obtain ⟨value, hvalue, -⟩ := hfold
  exact ⟨value, hvalue⟩

/-- Vectors of one length can be subtracted. -/
theorem DenseVector.exists_subtractMultiple? {target source : DenseVector F}
    (ht : target.length = n) (hs : source.length = n) (factor : F) :
  ∃ result, target.subtractMultiple? factor source = some result ∧ result.length = n
  := by
  unfold subtractMultiple?
  rw [if_pos (by rw [ht, hs])]
  split
  · exact ⟨target, rfl, ht⟩
  · refine ⟨_, rfl, ?_⟩
    rw [List.length_zipWith, ht, hs, min_self]

/-! ### Columns -/

namespace EtaColumn

variable {column inverse : EtaColumn F} {row owner : ℕ}

/-- A column made from a dense vector fits the vectors of its length. -/
theorem ofDense?_spec {dense : DenseVector F} (h : ofDense? dense row owner = some column) :
  column.Fits dense.length ∧ column.pivotRow = row ∧ column.owner = owner
    ∧ dense[row]? = some column.pivot
  := by
  unfold ofDense? at h
  obtain ⟨pivot, hpivot, h⟩ := Option.bind_eq_some_iff.mp h
  cases h
  refine ⟨⟨(List.getElem?_eq_some_iff.mp hpivot).1, ?_⟩, rfl, rfl, hpivot⟩
  intro entry hentry
  obtain ⟨hmem, hne⟩ := List.mem_filter.mp hentry
  obtain ⟨⟨value, i⟩, hvalue, hkeep⟩ := List.mem_filterMap.mp hmem
  have hget := List.mem_zipIdx_iff_getElem?.mp hvalue
  dsimp only at hkeep
  split at hkeep
  · cases hkeep
  · cases hkeep
    exact ⟨(List.getElem?_eq_some_iff.mp hget).1, by simpa using hne⟩

/-- A dense vector becomes a column with its pivot in any of its rows. -/
theorem exists_ofDense? {dense : DenseVector F} {value : F} (h : dense[row]? = some value)
    (owner : ℕ) :
  ∃ column, ofDense? dense row owner = some column ∧ column.pivot = value
  := by
  unfold ofDense?
  rw [h]
  exact ⟨_, rfl, rfl⟩

/-- A column made from a sparse vector has no other rows. -/
theorem ofSparse?_spec {sparse : SparseVector F} (h : ofSparse? sparse row owner = some column) :
  column.pivotRow = row ∧ column.owner = owner ∧ column.pivot = (sparse.valueAt? row).getD 0
    ∧ ∀ entry ∈ column.offPivot, entry ∈ sparse ∧ entry.1 ≠ row
  := by
  unfold ofSparse? at h
  split at h
  · cases h
    refine ⟨rfl, rfl, rfl, ?_⟩
    intro entry hentry
    obtain ⟨hmem, hkeep⟩ := List.mem_filter.mp hentry
    rw [Bool.and_eq_true, bne_iff_ne] at hkeep
    exact ⟨hmem, hkeep.1⟩
  · cases h

/-- A column made from a sparse vector fits the vectors that the sparse one fits. -/
theorem fits_of_ofSparse? {sparse : SparseVector F}
    (h : ofSparse? sparse row owner = some column) (hrow : row < n)
    (hbound : ∀ entry ∈ sparse, entry.1 < n) :
  column.Fits n
  := by
  obtain ⟨hpivotRow, -, -, hoff⟩ := ofSparse?_spec h
  constructor
  · rw [hpivotRow]
    apply hrow
  · intro entry hentry
    obtain ⟨hmem, hne⟩ := hoff entry hentry
    rw [hpivotRow]
    exact ⟨hbound entry hmem, hne⟩

/-- A column that is not zero in its pivot row can be inverted. -/
theorem exists_invert? (h : (column.pivot == 0) = false) :
  ∃ inverse, column.invert? = some inverse
  := by
  unfold invert?
  rw [h]
  exact ⟨_, rfl⟩

/-- Only a column that is not zero in its pivot row can be inverted. -/
theorem pivot_of_invert? (h : column.invert? = some inverse) :
  (column.pivot == 0) = false
  := by
  unfold invert? at h
  split at h
  · cases h
  · rename_i hpivot
    rw [Bool.eq_false_iff]
    apply hpivot

/-- Inverting a column changes nothing but its numbers. -/
theorem invert?_spec (h : column.invert? = some inverse) :
  inverse.pivotRow = column.pivotRow ∧ inverse.owner = column.owner
    ∧ inverse.offPivot.positions = column.offPivot.positions
  := by
  unfold invert? at h
  split at h
  · cases h
  · cases h
    refine ⟨rfl, rfl, ?_⟩
    unfold SparseVector.positions
    rw [List.map_map]
    rfl

omit [Scalar F] in
/-- Fitting is a property of the rows. -/
theorem fits_iff :
  column.Fits n ↔ column.pivotRow < n
    ∧ ∀ i ∈ column.offPivot.positions, i < n ∧ i ≠ column.pivotRow
  := by
  unfold SparseVector.positions
  rw [List.forall_mem_map]
  exact ⟨fun h => ⟨h.pivotRow_lt, h.offPivot⟩, fun h => ⟨h.1, h.2⟩⟩

theorem Fits.of_invert? (hfits : column.Fits n) (h : column.invert? = some inverse) :
  inverse.Fits n
  := by
  obtain ⟨hrow, -, hpositions⟩ := invert?_spec h
  rw [fits_iff, hrow, hpositions]
  apply fits_iff.mp hfits

/-- Applying a column never fails for vectors that it fits. -/
theorem Fits.exists_applyRight? (h : column.Fits n) {vector : DenseVector F}
    (hv : vector.length = n) :
  ∃ result, column.applyRight? vector = some result ∧ result.length = n
  := by
  have hrow : column.pivotRow < vector.length := by
    rw [hv]
    apply h.pivotRow_lt
  unfold applyRight?
  rw [List.getElem?_eq_getElem hrow, Option.bind_eq_bind, Option.bind_some]
  split
  · exact ⟨vector, rfl, hv⟩
  · obtain ⟨moved, hmoved, hlength⟩ := SparseVector.exists_foldlM_modify?
      (fun value x => x + vector[column.pivotRow] * value) h.off_lt hv
    refine ⟨List.set moved column.pivotRow (vector[column.pivotRow] * column.pivot), ?_, ?_⟩
    · rw [hmoved, Option.bind_eq_bind, Option.bind_some]
      unfold DenseVector.set?
      rw [if_pos (by rw [hlength]; apply h.pivotRow_lt)]
    · rw [List.length_set, hlength]

/-- Multiplying a row with a column never fails for vectors that the column fits. -/
theorem Fits.exists_applyLeft? (h : column.Fits n) {vector : DenseVector F}
    (hv : vector.length = n) :
  ∃ result, column.applyLeft? vector = some result ∧ result.length = n
  := by
  have hrow : column.pivotRow < vector.length := by
    rw [hv]
    apply h.pivotRow_lt
  obtain ⟨total, htotal⟩ := SparseVector.exists_inner? h.off_lt hv
  unfold applyLeft? inner?
  rw [htotal, List.getElem?_eq_getElem hrow]
  apply DenseVector.exists_set? hv h.pivotRow_lt

end EtaColumn

/-! ### Files -/

namespace EtaFile

variable {file committed : EtaFile F} {flip done : Bool}

/-- A commit leaves the file as it is, or appends the inverse of the staged column. -/
theorem commit?_spec (h : file.commit? flip = some (done, committed)) :
  (file.staged = none ∧ done = false ∧ committed = file)
    ∨ ∃ column inverse, file.staged = some column
      ∧ (if flip then column.negate else column).invert? = some inverse ∧ done = true
      ∧ committed = file.append inverse
  := by
  cases hstaged : file.staged with
  | none =>
      rw [commit?_of_staged_eq_none hstaged] at h
      cases h
      exact Or.inl ⟨rfl, rfl, rfl⟩
  | some column =>
      rw [commit?_of_staged hstaged] at h
      obtain ⟨inverse, hinverse, heq⟩ := Option.map_eq_some_iff.mp h
      cases heq
      exact Or.inr ⟨column, inverse, rfl, hinverse, rfl, rfl⟩

omit [Scalar F] in
/-- A file whose columns become those of the factorization has no staged column. -/
theorem markFactorEnd?_spec {marked : EtaFile F} (h : file.markFactorEnd? = some marked) :
  file.staged = none ∧ marked = file.asFactor
  := by
  rw [markFactorEnd?_eq] at h
  split at h
  · cases h
  · rename_i hstaged
    exact ⟨Option.not_isSome_iff_eq_none.mp hstaged, (Option.some_inj.mp h).symm⟩

/-- Applying a file never fails for vectors that it fits. -/
theorem Fits.exists_applyRight? (h : file.Fits n) {vector : DenseVector F}
    (hv : vector.length = n) :
  ∃ result, file.applyRight? vector = some result ∧ result.length = n
  := by
  rw [applyRight?_eq_foldlM]
  apply exists_foldlM (motive := fun v : DenseVector F => v.length = n) _ hv
  intro column hcolumn v hv
  apply (h column hcolumn).exists_applyRight? hv

/-- Multiplying a row with a file never fails for vectors that the file fits. -/
theorem Fits.exists_applyLeft? (h : file.Fits n) {vector : DenseVector F}
    (hv : vector.length = n) :
  ∃ result, file.applyLeft? vector = some result ∧ result.length = n
  := by
  rw [applyLeft?_eq_foldlM]
  apply exists_foldlM (motive := fun v : DenseVector F => v.length = n) _ hv
  intro column hcolumn v hv
  apply (h column (List.mem_reverse.mp hcolumn)).exists_applyLeft? hv

end EtaFile

end RevisedSimplex
