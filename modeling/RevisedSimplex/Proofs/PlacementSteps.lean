import RevisedSimplex.Placement
import RevisedSimplex.Proofs.EliminationCounts
import RevisedSimplex.Proofs.EtaShape

/-!
# Steps of a placement

What a placement has done when a step of it succeeds, for any numbers.  A step leaves the placement
as it is, or gives an unassigned candidate a free row, or rejects it; in between it commits at most
one eta column.  Everything that holds of a placement through its phases follows from this, since
what the steps keep holds at the end of a phase.
-/

namespace RevisedSimplex

variable {F : Type} [Scalar F]

/-! ### Assigning -/

namespace Elimination

variable {state result : Elimination F} {k row : ℕ}

omit [Scalar F] in
theorem release?_spec {rows : List ℕ} {pair : Elimination F × List ℕ}
    (h : state.release? k rows = some pair) :
  ∃ rowCount, pair.1 = { state with assigned := state.assigned.set k true, rowCount }
  := by
  unfold release? at h
  obtain ⟨⟨rowCount, singletons⟩, -, h⟩ := Option.bind_eq_some_iff.mp h
  cases h
  exact ⟨rowCount, rfl⟩

/-- Only an unassigned candidate is assigned, and only to a free row. -/
theorem assign?_spec {rows columns : List ℕ}
    (h : state.assign? k row = some (result, rows, columns)) :
  state.isUnassigned k = true ∧ state.isFree row = true
    ∧ result.candidates = state.candidates ∧ result.free = state.free.set row false
    ∧ result.assigned = state.assigned.set k true
  := by
  unfold assign? at h
  split at h
  · rename_i hvalid
    rw [Bool.and_eq_true] at hvalid
    obtain ⟨⟨released, _⟩, hreleased, h⟩ := Option.bind_eq_some_iff.mp h
    obtain ⟨⟨occupied, _⟩, hoccupied, h⟩ := Option.bind_eq_some_iff.mp h
    cases h
    obtain ⟨rowCount, hstate⟩ := release?_spec hreleased
    unfold occupy? at hoccupied
    obtain ⟨_, -, hoccupied⟩ := Option.bind_eq_some_iff.mp hoccupied
    obtain ⟨⟨columnCount, _⟩, -, hoccupied⟩ := Option.bind_eq_some_iff.mp hoccupied
    cases hoccupied
    dsimp only at hstate
    subst hstate
    exact ⟨hvalid.1, hvalid.2, rfl, rfl, rfl⟩
  · cases h

theorem drop?_spec (h : state.drop? k = some result) :
  result.candidates = state.candidates ∧ result.free = state.free
    ∧ result.assigned = state.assigned.set k true
  := by
  unfold drop? at h
  obtain ⟨⟨released, _⟩, hreleased, h⟩ := Option.bind_eq_some_iff.mp h
  cases h
  obtain ⟨rowCount, hstate⟩ := release?_spec hreleased
  dsimp only at hstate
  subst hstate
  exact ⟨rfl, rfl, rfl⟩

end Elimination

/-- Whether a row may be pivoted on that has a given magnitude, when the largest one is `best`. -/
def RowSelection.Admits (selection : RowSelection F) (best magnitude : F) : Prop :=
  match selection with
  | .largestMagnitude => magnitude = best
  | .markowitz threshold => threshold * best ≤ magnitude

namespace Placement

variable {placement result committed : Placement F} {k row : ℕ} {tolerance : F}
  {context : Context F} {queues later : SingletonQueues}

/-! ### Committing and placing -/

/-- A commit appends the inverse of the column. -/
theorem commit?_spec {column : EtaColumn F} (h : placement.commit? column = some committed) :
  ∃ inverse, column.invert? = some inverse
    ∧ committed = { placement with file := placement.file.append inverse }
  := by
  unfold commit? at h
  rw [EtaFile.commit?_of_staged (placement.file.staged_stage column), if_neg Bool.false_ne_true]
    at h
  obtain ⟨⟨done, file⟩, hfile, h⟩ := Option.bind_eq_some_iff.mp h
  obtain ⟨inverse, hinverse, heq⟩ := Option.map_eq_some_iff.mp hfile
  cases h
  cases heq
  refine ⟨inverse, hinverse, ?_⟩
  rw [EtaFile.append_stage]

/-- A column that is committed as it stands is that of a candidate. -/
theorem commitRaw?_spec (h : placement.commitRaw? k row = some committed) :
  ∃ candidate column, placement.elimination.candidates[k]? = some candidate
    ∧ EtaColumn.ofSparse? candidate.entries row candidate.owner = some column
    ∧ placement.commit? column = some committed
  := by
  unfold commitRaw? at h
  obtain ⟨candidate, hcandidate, h⟩ := Option.bind_eq_some_iff.mp h
  obtain ⟨column, hcolumn, h⟩ := Option.bind_eq_some_iff.mp h
  exact ⟨candidate, column, hcandidate, hcolumn, h⟩

/-- A candidate that is placed was unassigned, and its row free. -/
theorem place?_spec {rows columns : List ℕ}
    (h : placement.place? k row = some (result, rows, columns)) :
  ∃ candidate elimination, placement.elimination.candidates[k]? = some candidate
    ∧ placement.elimination.isUnassigned k = true ∧ placement.elimination.isFree row = true
    ∧ elimination.candidates = placement.elimination.candidates
    ∧ elimination.free = placement.elimination.free.set row false
    ∧ elimination.assigned = placement.elimination.assigned.set k true
    ∧ result = { placement with
        elimination, positions := placement.positions.set row (some candidate.owner) }
  := by
  unfold place? at h
  obtain ⟨candidate, hcandidate, h⟩ := Option.bind_eq_some_iff.mp h
  obtain ⟨⟨elimination, _, _⟩, hassign, h⟩ := Option.bind_eq_some_iff.mp h
  cases h
  obtain ⟨hk, hrow, hcandidates, hfree, hassigned⟩ := Elimination.assign?_spec hassign
  exact ⟨candidate, elimination, hcandidate, hk, hrow, hcandidates, hfree, hassigned, rfl⟩

/-- A start has the slacks in their rows and the structural variables as its candidates.  It has no
eta column yet, and nothing waits or is singular. -/
theorem start?_spec {model : Model F} {indices : List ℕ}
    (h : start? model indices = some placement) :
  ∃ positions candidates, slackPositions? model.nrRows indices = some positions
    ∧ (indices.filter fun v => model.nrRows < v).mapM (candidate? model) = some candidates
    ∧ placement = { elimination := .start (positions.map Option.isNone) candidates, positions }
  := by
  unfold start? at h
  obtain ⟨positions, hpositions, h⟩ := Option.bind_eq_some_iff.mp h
  obtain ⟨candidates, hcandidates, h⟩ := Option.bind_eq_some_iff.mp h
  cases h
  exact ⟨positions, candidates, hpositions, hcandidates, rfl⟩

/-! ### Steps -/

/-- A row that is taken is given to its candidate, whose column is committed as it stands. -/
theorem takeRow?_spec (h : takeRow? tolerance row placement queues = some (result, later)) :
  (result = placement ∧ later = queues
      ∧ ∀ k, placement.elimination.columnFor? row = some k →
        placement.elimination.isAcceptable tolerance k row = false)
    ∨ ∃ k committed rows columns, placement.elimination.columnFor? row = some k
      ∧ placement.elimination.isAcceptable tolerance k row = true
      ∧ placement.commitRaw? k row = some committed
      ∧ committed.place? k row = some (result, rows, columns)
      ∧ later = queues.add rows columns
  := by
  unfold takeRow? at h
  split at h
  · rename_i hnone
    cases h
    refine Or.inl ⟨rfl, rfl, ?_⟩
    intro k hk
    rw [hk, Option.filter_eq_none_iff] at hnone
    rw [Bool.eq_false_iff]
    apply hnone k rfl
  · rename_i k hk
    obtain ⟨hcolumn, hacceptable⟩ := Option.filter_eq_some_iff.mp hk
    obtain ⟨committed, hcommitted, h⟩ := Option.bind_eq_some_iff.mp h
    obtain ⟨⟨placed, rows, columns⟩, hplaced, h⟩ := Option.bind_eq_some_iff.mp h
    cases h
    exact Or.inr ⟨k, committed, rows, columns, hcolumn, hacceptable, hcommitted, hplaced, rfl⟩

/-- A candidate that is taken is given its row, and its commit put off. -/
theorem takeColumn?_spec (h : takeColumn? tolerance k placement queues = some (result, later)) :
  (result = placement ∧ later = queues
      ∧ ∀ row, placement.elimination.rowFor? k = some row →
        placement.elimination.isAcceptable tolerance k row = false)
    ∨ ∃ row placed rows columns, placement.elimination.rowFor? k = some row
      ∧ placement.elimination.isAcceptable tolerance k row = true
      ∧ placement.place? k row = some (placed, rows, columns)
      ∧ result = { placed with deferred := (k, row) :: placed.deferred }
      ∧ later = queues.add rows columns
  := by
  unfold takeColumn? at h
  split at h
  · rename_i hnone
    cases h
    refine Or.inl ⟨rfl, rfl, ?_⟩
    intro row hrow
    rw [hrow, Option.filter_eq_none_iff] at hnone
    rw [Bool.eq_false_iff]
    apply hnone row rfl
  · rename_i row hrow
    obtain ⟨hcolumn, hacceptable⟩ := Option.filter_eq_some_iff.mp hrow
    obtain ⟨⟨placed, rows, columns⟩, hplaced, h⟩ := Option.bind_eq_some_iff.mp h
    cases h
    exact Or.inr ⟨row, placed, rows, columns, hcolumn, hacceptable, hplaced, rfl, rfl⟩

/-- A candidate that is transformed is placed in its pivot row, or rejected without one. -/
theorem placeTransformed?_spec (h : placement.placeTransformed? context k = some result) :
  ∃ candidate raw solved, placement.elimination.candidates[k]? = some candidate
    ∧ candidate.entries.toDense? placement.positions.length = some raw
    ∧ placement.file.applyRight? raw = some solved
    ∧ ((∃ row column committed rows columns,
        pivotRow? context placement.elimination
            (DenseVector.roundRelative context.tolerances.drop solved) = some row
          ∧ EtaColumn.ofDense? (DenseVector.roundRelative context.tolerances.drop solved) row
            candidate.owner = some column
          ∧ placement.commit? column = some committed
          ∧ committed.place? k row = some (result, rows, columns))
      ∨ pivotRow? context placement.elimination
          (DenseVector.roundRelative context.tolerances.drop solved) = none
        ∧ ∃ elimination, placement.elimination.drop? k = some elimination
          ∧ result = { placement with
              elimination, singular := placement.singular ++ [candidate.owner] })
  := by
  unfold placeTransformed? at h
  obtain ⟨candidate, hcandidate, h⟩ := Option.bind_eq_some_iff.mp h
  obtain ⟨raw, hraw, h⟩ := Option.bind_eq_some_iff.mp h
  obtain ⟨solved, hsolved, h⟩ := Option.bind_eq_some_iff.mp h
  refine ⟨candidate, raw, solved, hcandidate, hraw, hsolved, ?_⟩
  dsimp only at h
  split at h
  · rename_i row hrow
    obtain ⟨column, hcolumn, h⟩ := Option.bind_eq_some_iff.mp h
    obtain ⟨committed, hcommitted, h⟩ := Option.bind_eq_some_iff.mp h
    obtain ⟨⟨placed, rows, columns⟩, hplaced, h⟩ := Option.bind_eq_some_iff.mp h
    cases h
    exact Or.inl ⟨row, column, committed, rows, columns, hrow, hcolumn, hcommitted, hplaced⟩
  · rename_i hnone
    obtain ⟨elimination, helimination, h⟩ := Option.bind_eq_some_iff.mp h
    cases h
    exact Or.inr ⟨hnone, elimination, helimination, rfl⟩

/-! ### Choices -/

theorem mem_of_largest? {entries : SparseVector F} {entry : ℕ × F}
    (h : largest? entries = some entry) :
  entry ∈ entries
  := by
  unfold largest? at h
  apply (foldl_select_mem _ entries h).resolve_left (by simp)
  rintro (_ | ⟨row, value⟩) a
  · apply Or.inr rfl
  · dsimp only
    split
    · apply Or.inl rfl
    · apply Or.inr rfl

theorem eq_nil_of_largest?_eq_none {entries : SparseVector F} (h : largest? entries = none) :
  entries = []
  := by
  unfold largest? at h
  apply foldl_select_ne_none _ entries h
  rintro (_ | ⟨row, value⟩) a
  · simp
  · dsimp only
    split <;> simp

theorem eq_nil_of_sparsest?_eq_none {rowCount : ℕ → ℕ} {entries : SparseVector F}
    (h : sparsest? rowCount entries = none) :
  entries = []
  := by
  unfold sparsest? at h
  apply foldl_select_ne_none _ entries h
  rintro (_ | ⟨row, value⟩) a
  · simp
  · dsimp only
    split <;> simp

theorem mem_of_sparsest? {rowCount : ℕ → ℕ} {entries : SparseVector F} {entry : ℕ × F}
    (h : sparsest? rowCount entries = some entry) :
  entry ∈ entries
  := by
  unfold sparsest? at h
  apply (foldl_select_mem _ entries h).resolve_left (by simp)
  rintro (_ | ⟨row, value⟩) a
  · apply Or.inr rfl
  · dsimp only
    split
    · apply Or.inr rfl
    · apply Or.inl rfl

omit [Scalar F] in
theorem next_mem (state : Elimination F) (k : ℕ) (rest : List ℕ) :
  next state k rest ∈ k :: rest
  := by
  unfold next
  induction rest generalizing k with
  | nil => apply List.mem_singleton_self
  | cons j rest ih =>
      rw [List.foldl_cons]
      split
      · apply List.mem_cons_of_mem _ (ih j)
      · rcases List.mem_cons.mp (ih k) with hk | hmem
        · rw [hk]
          apply List.mem_cons_self
        · apply List.mem_cons_of_mem _ (List.mem_cons_of_mem _ hmem)

/-- The chosen pivot row is free, and its entry is one that the selection admits beside the largest
one in a free row, which is not too small. -/
theorem admits_of_pivotRow? {state : Elimination F} {column : DenseVector F}
    (h : pivotRow? context state column = some row) :
  state.isFree row = true ∧ ∃ value best, column[row]? = some value
    ∧ ¬ best < context.tolerances.factorizationPivot
    ∧ context.rowSelection.Admits best (Scalar.magnitude value)
    ∧ ∃ i other, i ≠ 0 ∧ state.isFree i = true ∧ column[i]? = some other
      ∧ best = Scalar.magnitude other
  := by
  unfold pivotRow? at h
  dsimp only at h
  have hentry (entry : ℕ × F) (hmem : entry ∈ (column.zipIdx.filter fun entry =>
      state.isFree entry.2 && entry.2 != 0).map fun entry =>
        (entry.2, Scalar.magnitude entry.1)) :
      (entry.1 ≠ 0 ∧ state.isFree entry.1 = true)
        ∧ ∃ value, column[entry.1]? = some value ∧ entry.2 = Scalar.magnitude value := by
    obtain ⟨⟨value, i⟩, hvalue, rfl⟩ := List.mem_map.mp hmem
    obtain ⟨hvalue, hfree⟩ := List.mem_filter.mp hvalue
    rw [Bool.and_eq_true, bne_iff_ne] at hfree
    exact ⟨hfree.symm, value, List.mem_zipIdx_iff_getElem?.mp hvalue, rfl⟩
  obtain ⟨⟨i, best⟩, hlargest, h⟩ := Option.bind_eq_some_iff.mp h
  obtain ⟨⟨hi, hfree⟩, other, hother, hmagnitude⟩ := hentry _ (mem_of_largest? hlargest)
  dsimp only at h hother hmagnitude
  split at h
  · cases h
  · rename_i hbest
    split at h
    · rename_i hselection
      cases h
      refine ⟨hfree, other, best, hother, hbest, ?_, _, other, hi, hfree, hother, hmagnitude⟩
      rw [hselection]
      apply hmagnitude.symm
    · rename_i threshold hselection
      obtain ⟨chosen, hchosen, rfl⟩ := Option.map_eq_some_iff.mp h
      obtain ⟨hmem, hleast⟩ := List.mem_filter.mp (mem_of_sparsest? hchosen)
      obtain ⟨hrow, value, hvalue, hleastValue⟩ := hentry _ hmem
      refine ⟨hrow.2, value, best, hvalue, hbest, ?_, i, other, hi, hfree, hother, hmagnitude⟩
      rw [hselection, ← hleastValue]
      apply of_decide_eq_true hleast

/-! ### Phases -/

/-- What the steps of the singleton phase keep holds at its end, by induction on the turns. -/
theorem takeSingletons?_induction {motive : Placement F → Prop}
    (hrow : ∀ {row placement queues result later}, motive placement →
      takeRow? tolerance row placement queues = some (result, later) → motive result)
    (hcolumn : ∀ {k placement queues result later}, motive placement →
      takeColumn? tolerance k placement queues = some (result, later) → motive result) :
    ∀ {fuel : ℕ} {placement result : Placement F} {queues : SingletonQueues}, motive placement →
      takeSingletons? tolerance fuel placement queues = some result → motive result
  | 0, _, _, _, hplacement, h => by
      cases h
      apply hplacement
  | fuel + 1, placement, result, ⟨row :: rows, columns⟩, hplacement, h => by
      rw [takeSingletons?] at h
      obtain ⟨⟨next, queues⟩, hnext, h⟩ := Option.bind_eq_some_iff.mp h
      apply takeSingletons?_induction hrow hcolumn (hrow hplacement hnext) h
  | fuel + 1, placement, result, ⟨[], k :: columns⟩, hplacement, h => by
      rw [takeSingletons?] at h
      obtain ⟨⟨next, queues⟩, hnext, h⟩ := Option.bind_eq_some_iff.mp h
      apply takeSingletons?_induction hrow hcolumn (hcolumn hplacement hnext) h
  | _ + 1, _, _, ⟨[], []⟩, hplacement, h => by
      cases h
      apply hplacement

/-- What transforming a candidate keeps holds when all candidates have been through. -/
theorem placeRest?_induction {motive : Placement F → Prop}
    (hstep : ∀ {k placement result}, motive placement →
      placement.placeTransformed? context k = some result → motive result) :
    ∀ {count : ℕ} {remaining : List ℕ} {placement result : Placement F}, motive placement →
      placeRest? context count remaining placement = some result → motive result
  | count + 1, k :: rest, placement, result, hplacement, h => by
      rw [placeRest?] at h
      obtain ⟨next, hnext, h⟩ := Option.bind_eq_some_iff.mp h
      apply placeRest?_induction hstep (hstep hplacement hnext) h
  | 0, _, _, _, hplacement, h => by
      cases h
      apply hplacement
  | _ + 1, [], _, _, hplacement, h => by
      cases h
      apply hplacement

/-- What the commits that were put off keep holds when all of them are made. -/
theorem commitDeferred?_induction {motive : Placement F → Prop}
    (hstep : ∀ {passed next : Placement F} {k row : ℕ}, (k, row) ∈ placement.deferred →
      motive passed → passed.commitRaw? k row = some next → motive next)
    (hplacement : motive placement) (h : placement.commitDeferred? = some committed) :
  motive committed
  := by
  have hfold : ∀ {deferred : List (ℕ × ℕ)} {passed : Placement F},
      deferred ⊆ placement.deferred → motive passed →
      deferred.foldlM (fun placement pair => placement.commitRaw? pair.1 pair.2) passed
        = some committed → motive committed := by
    intro deferred
    induction deferred with
    | nil =>
        intro passed _ hpassed hdone
        cases hdone
        apply hpassed
    | cons pair deferred ih =>
        intro passed hsubset hpassed hdone
        obtain ⟨hpair, hrest⟩ := List.cons_subset.mp hsubset
        rw [List.foldlM_cons] at hdone
        obtain ⟨next, hnext, hdone⟩ := Option.bind_eq_some_iff.mp hdone
        apply ih hrest (hstep hpair hpassed hnext) hdone
  apply hfold (List.Subset.refl _) hplacement h

omit [Scalar F] in
/-- A step that is known to lead to a placement of some kind leads to no other. -/
theorem of_exists_later {motive : Placement F → Prop}
    {step : Option (Placement F × SingletonQueues)} {result : Placement F}
    {later : SingletonQueues}
    (h : ∃ result later, step = some (result, later) ∧ motive result)
    (hstep : step = some (result, later)) :
  motive result
  := by
  obtain ⟨other, _, hother, hmotive⟩ := h
  rw [hstep, Option.some_inj, Prod.mk_inj] at hother
  rw [hother.1]
  apply hmotive

/-- The singleton phase has a result when all its steps have one. -/
theorem exists_takeSingletons? {motive : Placement F → Prop}
    (hrow : ∀ {placement} row queues, motive placement →
      ∃ result later, takeRow? tolerance row placement queues = some (result, later)
        ∧ motive result)
    (hcolumn : ∀ {placement} k queues, motive placement →
      ∃ result later, takeColumn? tolerance k placement queues = some (result, later)
        ∧ motive result) :
    ∀ (fuel : ℕ) {placement : Placement F} (queues : SingletonQueues), motive placement →
      ∃ result, takeSingletons? tolerance fuel placement queues = some result ∧ motive result
  | 0, placement, _, h => ⟨placement, rfl, h⟩
  | fuel + 1, placement, ⟨row :: rows, columns⟩, h => by
      obtain ⟨next, queues, hnext, hkept⟩ := hrow row ⟨rows, columns⟩ h
      obtain ⟨result, hresult, hlast⟩ := exists_takeSingletons? hrow hcolumn fuel queues hkept
      refine ⟨result, ?_, hlast⟩
      rw [takeSingletons?, hnext]
      apply hresult
  | fuel + 1, placement, ⟨[], k :: columns⟩, h => by
      obtain ⟨next, queues, hnext, hkept⟩ := hcolumn k ⟨[], columns⟩ h
      obtain ⟨result, hresult, hlast⟩ := exists_takeSingletons? hrow hcolumn fuel queues hkept
      refine ⟨result, ?_, hlast⟩
      rw [takeSingletons?, hnext]
      apply hresult
  | fuel + 1, placement, ⟨[], []⟩, h => ⟨placement, rfl, h⟩

/-- A list of all unassigned candidates, each of them once. -/
structure Lists (placement : Placement F) (remaining : List ℕ) : Prop where
  nodup : remaining.Nodup
  mem_iff : ∀ k, k ∈ remaining ↔ placement.elimination.isUnassigned k = true

/-- A candidate that has been transformed is no longer unassigned. -/
theorem Lists.placeTransformed? {remaining : List ℕ} (h : placement.Lists remaining)
    (hplace : placement.placeTransformed? context k = some result) :
  result.Lists (remaining.erase k)
  := by
  have hassigned : result.elimination.assigned = placement.elimination.assigned.set k true := by
    obtain ⟨candidate, raw, solved, -, -, -, hcases⟩ := placeTransformed?_spec hplace
    rcases hcases with ⟨row, column, committed, rows, columns, -, -, hcommit, hplaced⟩
      | ⟨-, elimination, hdrop, rfl⟩
    · obtain ⟨inverse, -, rfl⟩ := commit?_spec hcommit
      obtain ⟨_, elimination, -, -, -, -, -, hassigned, rfl⟩ := place?_spec hplaced
      apply hassigned
    · apply (Elimination.drop?_spec hdrop).2.2
  constructor
  · apply h.nodup.erase k
  · intro j
    rw [h.nodup.mem_erase_iff, h.mem_iff,
      show result.elimination.isUnassigned j = _ from Elimination.isUnassigned_of_set _ hassigned j,
      Bool.and_eq_true, bne_iff_ne, and_comm]

/-- The last phase ends when all candidates have been through. -/
theorem placeRest?_of_length_le :
    ∀ {count : ℕ} {remaining : List ℕ} {placement : Placement F}, remaining.length ≤ count →
      placeRest? context count remaining placement
        = placeRest? context remaining.length remaining placement
  | count, [], placement, _ => by
      cases count <;> rfl
  | count + 1, k :: rest, placement, h => by
      have hchosen := next_mem placement.elimination k rest
      have hlength : ((k :: rest).erase (next placement.elimination k rest)).length
          = rest.length := by
        rw [List.length_erase_of_mem hchosen]
        rfl
      have hle := Nat.le_of_succ_le_succ h
      rw [List.length_cons, placeRest?, placeRest?]
      congr 1
      funext following
      rw [placeRest?_of_length_le (by rw [hlength]; apply hle), hlength]

/-- What transforming unassigned candidates keeps holds at the end of the last phase, when none is
left.  The steps may rely on what is known of all placements on the way. -/
theorem placeRest?_exhausts {motive passes : Placement F → Prop}
    (hstep : ∀ {k placement result}, motive placement → passes placement →
      placement.elimination.isUnassigned k = true →
      placement.placeTransformed? context k = some result → motive result) :
    ∀ {count : ℕ} {remaining : List ℕ} {placement result : Placement F},
      remaining.length = count → placement.Lists remaining →
      (∀ turns passed, placeRest? context turns remaining placement = some passed →
        passes passed) →
      motive placement → placeRest? context count remaining placement = some result →
      motive result ∧ ∀ k, result.elimination.isUnassigned k = false
  | 0, remaining, placement, result, hlength, hlists, _, hkeeps, h => by
      rw [List.length_eq_zero_iff] at hlength
      subst hlength
      cases h
      refine ⟨hkeeps, ?_⟩
      intro k
      rw [Bool.eq_false_iff]
      intro hk
      cases (hlists.mem_iff k).mpr hk
  | count + 1, k :: rest, placement, result, hlength, hlists, hpasses, hkeeps, h => by
      have hchosen := next_mem placement.elimination k rest
      rw [placeRest?] at h
      obtain ⟨next, hnext, h⟩ := Option.bind_eq_some_iff.mp h
      have hkept := hstep hkeeps (hpasses 0 placement rfl) ((hlists.mem_iff _).mp hchosen) hnext
      apply placeRest?_exhausts hstep _ (hlists.placeTransformed? hnext) _ hkept h
      · rw [List.length_erase_of_mem hchosen, hlength]
        rfl
      · intro turns passed hpassed
        apply hpasses (turns + 1) passed
        rw [placeRest?, hnext]
        apply hpassed

/-- The last phase has a result when unassigned candidates can be transformed. -/
theorem exists_placeRest? {motive : Placement F → Prop}
    (hstep : ∀ {k placement}, motive placement → placement.elimination.isUnassigned k = true →
      ∃ result, placement.placeTransformed? context k = some result ∧ motive result) :
    ∀ (count : ℕ) {remaining : List ℕ} {placement : Placement F}, placement.Lists remaining →
      motive placement →
      ∃ result, placeRest? context count remaining placement = some result ∧ motive result
  | count + 1, k :: rest, placement, hlists, h => by
      have hchosen := next_mem placement.elimination k rest
      obtain ⟨next, hnext, hkept⟩ := hstep h ((hlists.mem_iff _).mp hchosen)
      obtain ⟨result, hresult, hlast⟩ :=
        exists_placeRest? hstep count (hlists.placeTransformed? hnext) hkept
      refine ⟨result, ?_, hlast⟩
      rw [placeRest?, hnext]
      apply hresult
  | 0, _, placement, _, h => ⟨placement, rfl, h⟩
  | _ + 1, [], placement, _, h => ⟨placement, rfl, h⟩

end Placement

/-- A basis is placed when all phases have a result. -/
theorem PlacedBasis.of?_of_phases {context : Context F} {model : Model F} {indices : List ℕ}
    {start singles rest last : Placement F} (hzero : 0 ∉ indices)
    (hstart : Placement.start? model indices = some start)
    (hsingles : start.placeSingletons? context.tolerances.factorizationPivot = some singles)
    (hrest : Placement.placeRest? context
        ((List.range singles.elimination.candidates.length).filter
          singles.elimination.isUnassigned).length
        ((List.range singles.elimination.candidates.length).filter
          singles.elimination.isUnassigned) singles = some rest)
    (hlast : rest.commitDeferred? = some last) (hstaged : last.file.staged = none) :
  PlacedBasis.of? context model indices = some
    { file := last.file.asFactor
      nrCandidates := singles.elimination.candidates.length
      nrSingletons := singles.file.nrColumns + singles.deferred.length
      positions := last.filledPositions
      singular := last.singular }
  := by
  have hcontains : indices.contains 0 = false := by
    rw [Bool.eq_false_iff, ne_eq, List.contains_iff_mem]
    apply hzero
  have hmark : last.file.markFactorEnd? = some last.file.asFactor := by
    rw [EtaFile.markFactorEnd?_eq, hstaged]
    rfl
  unfold PlacedBasis.of?
  simp only [hcontains, Bool.false_eq_true, if_false, hstart, hsingles, hrest, hlast, hmark,
    Option.bind_eq_bind, Option.bind_some]

/-- The phases of a placement. -/
theorem PlacedBasis.of?_spec {context : Context F} {model : Model F} {indices : List ℕ}
    {placed : PlacedBasis F} (h : PlacedBasis.of? context model indices = some placed) :
  ∃ start singles rest last file, Placement.start? model indices = some start
    ∧ start.placeSingletons? context.tolerances.factorizationPivot = some singles
    ∧ Placement.placeRest? context
        ((List.range singles.elimination.candidates.length).filter
          singles.elimination.isUnassigned).length
        ((List.range singles.elimination.candidates.length).filter
          singles.elimination.isUnassigned) singles = some rest
    ∧ rest.commitDeferred? = some last ∧ last.file.markFactorEnd? = some file
    ∧ placed.file = file ∧ placed.positions = last.filledPositions
    ∧ placed.singular = last.singular
  := by
  unfold PlacedBasis.of? at h
  split at h
  · cases h
  · obtain ⟨start, hstart, h⟩ := Option.bind_eq_some_iff.mp h
    obtain ⟨singles, hsingles, h⟩ := Option.bind_eq_some_iff.mp h
    obtain ⟨rest, hrest, h⟩ := Option.bind_eq_some_iff.mp h
    obtain ⟨last, hlast, h⟩ := Option.bind_eq_some_iff.mp h
    obtain ⟨file, hfile, h⟩ := Option.bind_eq_some_iff.mp h
    cases h
    exact ⟨start, singles, rest, last, file, hstart, hsingles, hrest, hlast, hfile, rfl, rfl, rfl⟩

end RevisedSimplex
