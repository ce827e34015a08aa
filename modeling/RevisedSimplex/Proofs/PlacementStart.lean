import RevisedSimplex.Proofs.PlacementInvariant

/-!
# The start of a placement

A placement starts with the given slacks at their own rows and with a candidate column for every
given structural variable.  For distinct variables it never fails, and both invariants of a
placement hold.
-/

namespace RevisedSimplex

variable {F : Type} [ExactScalar F]

namespace Placement

variable {model : Model F} {indices : List ℕ} {placement : Placement F} {k row : ℕ}

/-- Both invariants of a placement. -/
structure Sound (model : Model F) (indices : List ℕ) (placement : Placement F) : Prop where
  placed : placement.Placed model indices
  inverting : placement.Inverting model

/-- No unassigned candidate has a nonzero in a pivot row. -/
def Untouched (placement : Placement F) : Prop :=
  ∀ k, placement.elimination.isUnassigned k = true →
    ∀ i ∈ placement.file.pivotRows, placement.elimination.hits k i = false

/-! ### The start -/

omit [ExactScalar F] in
/-- Giving distinct slacks the rows that they are numbered by. -/
theorem foldlM_slacks_eq :
    ∀ {slacks : List ℕ} {positions : List (Option ℕ)}, slacks.Nodup →
      (∀ v ∈ slacks, positions[v]? = some none) →
      ∃ result, slacks.foldlM
          (fun (positions : List (Option ℕ)) slack =>
            match positions[slack]? with
            | some none => some (positions.set slack (some slack))
            | _ => none)
          positions = some result
        ∧ ∀ i : ℕ, result[i]? = if i ∈ slacks then some (some i) else positions[i]?
  | [], positions, _, _ => ⟨positions, rfl, by simp⟩
  | slack :: slacks, positions, hnodup, hnone => by
      obtain ⟨hnot, hnodup⟩ := List.nodup_cons.mp hnodup
      obtain ⟨hslack, hnone⟩ := List.forall_mem_cons.mp hnone
      have hlt := (List.getElem?_eq_some_iff.mp hslack).1
      have hrest : ∀ v ∈ slacks, (positions.set slack (some slack))[v]? = some none := by
        intro v hv
        rw [List.getElem?_set_ne, hnone v hv]
        rintro rfl
        apply hnot hv
      obtain ⟨result, hresult, hentries⟩ := foldlM_slacks_eq hnodup hrest
      use result
      constructor
      · rw [List.foldlM_cons, hslack]
        apply hresult
      · intro i
        rw [hentries i]
        by_cases hi : i = slack
        · subst hi
          simp [hnot, List.getElem?_set_self hlt]
        · simp [hi, List.getElem?_set_ne fun e => hi e.symm]

omit [ExactScalar F] in
/-- The positions at the start. -/
theorem slackPositions?_eq (nrRows : ℕ) (hnodup : (indices.filter fun v => v ≤ nrRows).Nodup)
    (hpos : ∀ v ∈ indices, 0 < v) :
  ∃ positions, slackPositions? nrRows indices = some positions
    ∧ positions.length = nrRows + 1
    ∧ positions[0]? = some (some 0)
    ∧ (∀ v ∈ indices, v ≤ nrRows → positions[v]? = some (some v))
    ∧ ∀ i v : ℕ, positions[i]? = some (some v) → v = i ∧ (v = 0 ∨ v ∈ indices)
  := by
  have hmem (v : ℕ) : v ∈ indices.filter (fun v => v ≤ nrRows) ↔ v ∈ indices ∧ v ≤ nrRows := by
    rw [List.mem_filter, decide_eq_true_eq]
  have hstart (i : ℕ) : (some 0 :: List.replicate nrRows (none : Option ℕ))[i]?
      = if i = 0 then some (some 0) else if i ≤ nrRows then some none else none := by
    cases i with
    | zero => rfl
    | succ i =>
        rw [List.getElem?_cons_succ, List.getElem?_replicate, if_neg (Nat.succ_ne_zero i)]
        simp only [Nat.add_one_le_iff]
  have hfree : ∀ v ∈ indices.filter (fun v => v ≤ nrRows),
      (some 0 :: List.replicate nrRows (none : Option ℕ))[v]? = some none := by
    intro v hv
    obtain ⟨hv, hle⟩ := (hmem v).mp hv
    rw [hstart, if_neg (hpos v hv).ne', if_pos hle]
  obtain ⟨positions, hfold, hentries⟩ := foldlM_slacks_eq hnodup hfree
  use positions, hfold
  have hzero : 0 ∉ indices := fun h => absurd (hpos 0 h) (lt_irrefl 0)
  constructor
  · have hlast : positions[nrRows + 1]? = none := by
      rw [hentries, if_neg (by rw [hmem]; omega), hstart]
      simp
    have hrange (i : ℕ) (hi : i < nrRows + 1) : positions[i]? ≠ none := by
      rw [hentries, hstart]
      split
      · simp
      · split
        · simp
        · rw [if_pos (by omega)]
          simp
    apply le_antisymm
    · apply List.getElem?_eq_none_iff.mp hlast
    · by_contra hlt
      apply hrange positions.length (by omega)
      apply List.getElem?_eq_none le_rfl
  · constructor
    · rw [hentries, if_neg (by rw [hmem]; tauto), hstart]
      rfl
    · constructor
      · intro v hv hle
        rw [hentries, if_pos ((hmem v).mpr ⟨hv, hle⟩)]
      · intro i v hv
        rw [hentries, hstart] at hv
        split at hv
        · rename_i hi
          rw [Option.some_inj, Option.some_inj] at hv
          rw [← hv]
          exact ⟨rfl, Or.inr ((hmem i).mp hi).1⟩
        · split at hv
          · rename_i hi
            rw [Option.some_inj, Option.some_inj] at hv
            rw [hi, ← hv]
            exact ⟨rfl, Or.inl rfl⟩
          · split at hv <;> simp at hv

section Accounts

variable {F : Type} [Scalar F] {model : Model F}

/-- Every structural variable has a candidate column. -/
theorem candidate?_eq (model : Model F) {v : ℕ} (hlt : v < model.nrVariables)
    (hstructural : model.nrRows < v) :
  ∃ candidate, candidate? model v = some candidate ∧ candidate.owner = v
    ∧ model.column? v = some candidate.entries
  := by
  obtain ⟨entries, hentries, -⟩ := model.column?_eq hlt
  obtain ⟨j, hj, rfl⟩ : ∃ j, j < model.nrColumns ∧ v = 1 + model.nrRows + j := by
    unfold Model.nrVariables at hlt
    exact ⟨v - 1 - model.nrRows, by omega, by omega⟩
  obtain ⟨-, column, -, hcolumn, -⟩ := model.exists_structural hj
  have hnonzeros : model.nonzeros? (1 + model.nrRows + j) = some column.length := by
    simp [Model.nonzeros?, Model.kind?_add hj, hcolumn]
  refine ⟨{ owner := 1 + model.nrRows + j, entries, nrNonzeros := column.length }, ?_, rfl,
    hentries⟩
  unfold candidate?
  simp [hentries, hnonzeros]

/-- The candidate columns of structural variables, in their order. -/
theorem mapM_candidate?_eq (model : Model F) :
    ∀ {numbers : List ℕ},
      (∀ v ∈ numbers, v < model.nrVariables ∧ model.nrRows < v) →
      ∃ candidates, numbers.mapM (candidate? model) = some candidates
        ∧ (∀ candidate ∈ candidates, candidate.owner < model.nrVariables
          ∧ model.column? candidate.owner = some candidate.entries)
        ∧ candidates.map CandidateColumn.owner = numbers
  | [], _ => ⟨[], rfl, by simp, rfl⟩
  | v :: numbers, h => by
      obtain ⟨⟨hlt, hstructural⟩, hrest⟩ := List.forall_mem_cons.mp h
      obtain ⟨candidate, hcandidate, howner, hentries⟩ := candidate?_eq model hlt hstructural
      obtain ⟨candidates, hcandidates, hall, howners⟩ := mapM_candidate?_eq model hrest
      refine ⟨candidate :: candidates, ?_, ?_, ?_⟩
      · rw [List.mapM_cons, hcandidate, hcandidates]
        rfl
      · intro other hother
        rcases List.mem_cons.mp hother with rfl | hother
        · rw [howner]
          exact ⟨hlt, hentries⟩
        · apply hall other hother
      · rw [List.map_cons, howner, howners]

/-- The accounts of rows and variables hold at the start. -/
theorem Placed.start {positions : List (Option ℕ)} {candidates : List (CandidateColumn F)}
    (hlength : positions.length = model.nrRows + 1) (hdummy : positions[0]? = some (some 0))
    (hslacks : ∀ v ∈ indices, v ≤ model.nrRows → positions[v]? = some (some v))
    (hown : ∀ i v : ℕ, positions[i]? = some (some v) → v = i)
    (hcandidate : ∀ column ∈ candidates, column.owner < model.nrVariables
      ∧ model.column? column.owner = some column.entries)
    (hevery : ∀ v ∈ indices, model.nrRows < v → ∃ column ∈ candidates, column.owner = v) :
  Placed model indices
    { elimination := .start (positions.map Option.isNone) candidates, positions }
  := by
  constructor
  case counted =>
    apply Elimination.counted_start
    intro column hcolumn
    obtain ⟨hlt, hentries⟩ := hcandidate column hcolumn
    obtain ⟨entries, hsome, hordered, -⟩ := model.column?_eq hlt
    rw [hentries] at hsome
    cases hsome
    apply hordered
  case candidate =>
    intro k column hk
    apply hcandidate column (List.mem_of_getElem? hk)
  case length => apply hlength
  case free =>
    intro i
    rw [Elimination.isFree_start, List.getElem?_map]
    cases hi : positions[i]? with
    | none => simp
    | some v => cases v <;> simp
  case lt =>
    intro i v hv
    obtain ⟨hlt, -⟩ := List.getElem?_eq_some_iff.mp hv
    rw [hlength] at hlt
    rw [hown i v hv]
    unfold Model.nrVariables
    omega
  case dummy => apply hdummy
  case kept =>
    intro v hv
    obtain hle | hgt := le_or_gt v model.nrRows
    · apply Or.inl (List.mem_of_getElem? (hslacks v hv hle))
    · obtain ⟨column, hcolumn, howner⟩ := hevery v hv hgt
      obtain ⟨k, hk⟩ := List.mem_iff_getElem?.mp hcolumn
      refine Or.inr (Or.inr ⟨k, column, ?_, hk, howner⟩)
      apply Elimination.isUnassigned_start.mpr (List.getElem?_eq_some_iff.mp hk).1

/-- Variables can be placed when no slack is listed twice.  At the start only slacks hold rows, and
every structural variable has a candidate. -/
theorem exists_start? (hnodup : (indices.filter fun v => v ≤ model.nrRows).Nodup)
    (hindices : ∀ v ∈ indices, 0 < v ∧ v < model.nrVariables) :
  ∃ positions candidates, start? model indices
      = some { elimination := .start (positions.map Option.isNone) candidates, positions }
    ∧ Placed model indices
      { elimination := .start (positions.map Option.isNone) candidates, positions }
    ∧ (∀ v ∈ indices, v ≤ model.nrRows → positions[v]? = some (some v))
    ∧ (∀ i v : ℕ, positions[i]? = some (some v) → v = i ∧ (v = 0 ∨ v ∈ indices))
    ∧ candidates.map CandidateColumn.owner = indices.filter fun v => model.nrRows < v
  := by
  obtain ⟨positions, hpositions, hlength, hdummy, hslacks, hown⟩ :=
    slackPositions?_eq model.nrRows hnodup fun v hv => (hindices v hv).1
  have hstructural : ∀ v ∈ indices.filter (fun v => model.nrRows < v),
      v < model.nrVariables ∧ model.nrRows < v := by
    intro v hv
    obtain ⟨hv, hlt⟩ := List.mem_filter.mp hv
    exact ⟨(hindices v hv).2, of_decide_eq_true hlt⟩
  obtain ⟨candidates, hcandidates, hcandidate, howners⟩ := mapM_candidate?_eq model hstructural
  refine ⟨positions, candidates, ?_, ?_, hslacks, hown, howners⟩
  · unfold start?
    rw [hpositions, hcandidates]
    rfl
  · apply Placed.start hlength hdummy hslacks (fun i v hv => (hown i v hv).1) hcandidate
    intro v hv hlt
    have howner : v ∈ candidates.map CandidateColumn.owner := by
      rw [howners, List.mem_filter]
      exact ⟨hv, decide_eq_true hlt⟩
    obtain ⟨candidate, hmem, hv⟩ := List.mem_map.mp howner
    exact ⟨candidate, hmem, hv⟩

end Accounts

/-- Without eta columns every given slack holds its own row. -/
theorem Inverting.start {positions : List (Option ℕ)}
    (hown : ∀ i v : ℕ, positions[i]? = some (some v) → v = i) (elimination : Elimination F) :
  Inverting model { elimination, positions }
  := by
  constructor
  case fits => apply EtaFile.fits_empty
  case staged => rfl
  case pivoted =>
    intro i hi
    cases hi
  case own =>
    intro i v hv _
    apply Or.inl (hown i v hv)
  case deferred =>
    intro j i hji
    cases hji
  case order => apply List.Pairwise.nil

/-- Both invariants hold at the start. -/
theorem start?_eq (hnodup : indices.Nodup)
    (hindices : ∀ v ∈ indices, 0 < v ∧ v < model.nrVariables) :
  ∃ placement, start? model indices = some placement ∧ placement.Sound model indices
    ∧ placement.Untouched
  := by
  obtain ⟨positions, candidates, hstart, hplaced, -, hown, -⟩ := exists_start? (hnodup.filter _) hindices
  refine ⟨_, hstart, ⟨hplaced, Inverting.start (fun i v hv => (hown i v hv).1) _⟩, ?_⟩
  intro j _ i hi
  cases hi

end Placement

end RevisedSimplex
