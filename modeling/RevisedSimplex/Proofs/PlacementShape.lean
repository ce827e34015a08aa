import RevisedSimplex.Proofs.ModelColumns
import RevisedSimplex.Proofs.PlacementSteps

/-!
# Shapes of a placement

Whatever the numbers and the settings are, all rows that a placement deals with are rows of its
model: those of its candidates, of its eta columns and of the columns that wait.  So the file of a
factorization fits the vectors of the model, even one with a tolerance that lets bad pivots pass.
-/

namespace RevisedSimplex

namespace Placement

variable {F : Type} [Scalar F] {n : ℕ} {placement result committed : Placement F} {k row : ℕ}
  {tolerance : F} {context : Context F} {queues later : SingletonQueues}

/-- All rows of the placement lie below `n`. -/
structure Shaped (n : ℕ) (placement : Placement F) : Prop where
  free : placement.elimination.free.length = n
  positions : placement.positions.length = n
  candidates : ∀ candidate ∈ placement.elimination.candidates,
    ∀ entry ∈ candidate.entries, entry.1 < n
  fits : placement.file.Fits n
  deferred : ∀ pair ∈ placement.deferred, pair.2 < n

omit [Scalar F] in
theorem Shaped.row_lt (h : placement.Shaped n)
    (hrow : placement.elimination.isFree row = true) :
  row < n
  := by
  obtain ⟨hlt, -⟩ := List.getElem?_eq_some_iff.mp (beq_iff_eq.mp hrow)
  rw [← h.free]
  apply hlt

theorem Shaped.commit? (h : placement.Shaped n) {column : EtaColumn F} (hfits : column.Fits n)
    (hcommit : placement.commit? column = some committed) :
  committed.Shaped n
  := by
  obtain ⟨inverse, hinverse, rfl⟩ := commit?_spec hcommit
  exact { h with
    fits := h.fits.append (hfits.of_invert? hinverse) (EtaFile.columns_append _ _) }

theorem Shaped.commitRaw? (h : placement.Shaped n) (hrow : row < n)
    (hcommit : placement.commitRaw? k row = some committed) :
  committed.Shaped n
  := by
  obtain ⟨candidate, column, hcandidate, hcolumn, hcommit⟩ := commitRaw?_spec hcommit
  apply h.commit? _ hcommit
  apply EtaColumn.fits_of_ofSparse? hcolumn hrow
  apply h.candidates candidate (List.mem_of_getElem? hcandidate)

theorem Shaped.place? (h : placement.Shaped n) {rows columns : List ℕ}
    (hplace : placement.place? k row = some (result, rows, columns)) :
  result.Shaped n ∧ row < n
  := by
  obtain ⟨candidate, elimination, -, -, hrow, hcandidates, hfree, -, rfl⟩ := place?_spec hplace
  refine ⟨?_, h.row_lt hrow⟩
  constructor
  case free =>
    change elimination.free.length = n
    rw [hfree, List.length_set, h.free]
  case positions =>
    change (placement.positions.set row _).length = n
    rw [List.length_set, h.positions]
  case candidates =>
    change ∀ candidate ∈ elimination.candidates, _
    rw [hcandidates]
    apply h.candidates
  case fits => apply h.fits
  case deferred => apply h.deferred

omit [Scalar F] in
/-- Rejecting a candidate changes no rows. -/
theorem Shaped.reject (h : placement.Shaped n) {elimination : Elimination F} {singular : List ℕ}
    (hcandidates : elimination.candidates = placement.elimination.candidates)
    (hfree : elimination.free = placement.elimination.free) :
  Shaped n { placement with elimination, singular }
  := by
  constructor
  case free =>
    change elimination.free.length = n
    rw [hfree, h.free]
  case positions => apply h.positions
  case candidates =>
    change ∀ candidate ∈ elimination.candidates, _
    rw [hcandidates]
    apply h.candidates
  case fits => apply h.fits
  case deferred => apply h.deferred

theorem Shaped.takeRow? (h : placement.Shaped n)
    (htake : takeRow? tolerance row placement queues = some (result, later)) :
  result.Shaped n
  := by
  rcases takeRow?_spec htake with ⟨rfl, -⟩
    | ⟨k, committed, rows, columns, -, -, hcommit, hplace, -⟩
  · apply h
  · obtain ⟨candidate, column, -, -, hcolumn⟩ := commitRaw?_spec hcommit
    obtain ⟨inverse, -, hcommitted⟩ := commit?_spec hcolumn
    obtain ⟨_, _, -, -, hfree, -⟩ := place?_spec hplace
    rw [hcommitted] at hfree
    apply ((h.commitRaw? (h.row_lt hfree) hcommit).place? hplace).1

theorem Shaped.takeColumn? (h : placement.Shaped n)
    (htake : takeColumn? tolerance k placement queues = some (result, later)) :
  result.Shaped n
  := by
  rcases takeColumn?_spec htake with ⟨rfl, -⟩ | ⟨row, placed, rows, columns, -, -, hplace, rfl, -⟩
  · apply h
  · obtain ⟨hplaced, hrow⟩ := h.place? hplace
    refine { hplaced with deferred := ?_ }
    intro pair hpair
    rcases List.mem_cons.mp hpair with rfl | hpair
    · apply hrow
    · apply hplaced.deferred pair hpair

theorem Shaped.placeTransformed? (h : placement.Shaped n)
    (hplace : placement.placeTransformed? context k = some result) :
  result.Shaped n
  := by
  obtain ⟨candidate, raw, solved, hcandidate, hraw, hsolved, hcases⟩ :=
    placeTransformed?_spec hplace
  rcases hcases with ⟨row, column, committed, rows, columns, -, hcolumn, hcommit, hplaced⟩
    | ⟨-, elimination, hdrop, rfl⟩
  · obtain ⟨other, hother, hlength⟩ := SparseVector.exists_toDense?
      (h.candidates candidate (List.mem_of_getElem? hcandidate))
    rw [h.positions, hother, Option.some_inj] at hraw
    subst hraw
    obtain ⟨last, hlast, hlength⟩ := h.fits.exists_applyRight? hlength
    rw [hsolved, Option.some_inj] at hlast
    subst hlast
    have hfits := (EtaColumn.ofDense?_spec hcolumn).1
    rw [DenseVector.length_roundRelative, hlength] at hfits
    apply ((h.commit? hfits hcommit).place? hplaced).1
  · obtain ⟨hcandidates, hfree, -⟩ := Elimination.drop?_spec hdrop
    apply h.reject hcandidates hfree

theorem Shaped.commitDeferred? (h : placement.Shaped n)
    (hcommit : placement.commitDeferred? = some committed) :
  committed.Shaped n
  := by
  apply commitDeferred?_induction _ h hcommit
  intro passed next k row hpair hpassed hnext
  apply hpassed.commitRaw? (h.deferred (k, row) hpair) hnext

/-- Every row has a place for its slack. -/
theorem length_of_slackPositions? {nrRows : ℕ} {indices : List ℕ} {positions : List (Option ℕ)}
    (h : slackPositions? nrRows indices = some positions) :
  positions.length = nrRows + 1
  := by
  unfold slackPositions? at h
  have hstart : (some 0 :: List.replicate nrRows (none : Option ℕ)).length = nrRows + 1 := by
    rw [List.length_cons, List.length_replicate]
  dsimp only at h
  generalize some 0 :: List.replicate nrRows none = start at h hstart
  generalize indices.filter (fun v => v ≤ nrRows) = slacks at h
  induction slacks generalizing start with
  | nil =>
      cases h
      apply hstart
  | cons slack slacks ih =>
      rw [List.foldlM_cons] at h
      obtain ⟨next, hnext, h⟩ := Option.bind_eq_some_iff.mp h
      split at hnext
      · cases hnext
        apply ih _ _ h
        rw [List.length_set, hstart]
      · cases hnext

/-- A placement starts with the rows of its model. -/
theorem shaped_of_start? {model : Model F} {indices : List ℕ}
    (h : start? model indices = some placement) :
  placement.Shaped (model.nrRows + 1)
  := by
  obtain ⟨positions, candidates, hpositions, hcandidates, rfl⟩ := start?_spec h
  have hlength := length_of_slackPositions? hpositions
  constructor
  case free =>
    change (positions.map Option.isNone).length = _
    rw [List.length_map, hlength]
  case positions => apply hlength
  case candidates =>
    intro candidate hcandidate
    obtain ⟨v, -, hv⟩ := exists_of_mem_mapM hcandidates hcandidate
    unfold candidate? at hv
    obtain ⟨entries, hentries, hv⟩ := Option.bind_eq_some_iff.mp hv
    obtain ⟨nrNonzeros, -, hv⟩ := Option.bind_eq_some_iff.mp hv
    cases hv
    apply (Model.column?_spec hentries).2
  case fits => apply EtaFile.fits_empty
  case deferred =>
    intro pair hpair
    cases hpair

end Placement

/-- The file of every factorization fits the vectors of the model, and no column of it stems from a
change. -/
theorem PlacedBasis.fits_of_of? {F : Type} [Scalar F] {context : Context F} {model : Model F}
    {indices : List ℕ} {placed : PlacedBasis F}
    (h : PlacedBasis.of? context model indices = some placed) :
  placed.file.Fits (model.nrRows + 1) ∧ placed.file.staged = none
    ∧ placed.file.factorColumns = placed.file.nrColumns
  := by
  obtain ⟨start, singles, rest, last, file, hstart, hsingles, hrest, hlast, hmark, rfl, -, -⟩ :=
    PlacedBasis.of?_spec h
  have hsingles := Placement.takeSingletons?_induction (fun h => h.takeRow?)
    (fun h => h.takeColumn?) (Placement.shaped_of_start? hstart) hsingles
  have hrest := Placement.placeRest?_induction (fun h => h.placeTransformed?) hsingles hrest
  have hshaped := hrest.commitDeferred? hlast
  obtain ⟨hstaged, hfile⟩ := EtaFile.markFactorEnd?_spec hmark
  rw [hfile]
  exact ⟨hshaped.fits, hstaged, rfl⟩

end RevisedSimplex
