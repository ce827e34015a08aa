import RevisedSimplex.Proofs.ProductFormSteps
import RevisedSimplex.Proofs.Saturation
import Mathlib.Data.Prod.Lex

/-!
# The order of the variables

A factorization of as many distinct variables as there are rows does not depend on the order in
which they are given, if none of them is singular: in every other order none is singular either,
and every variable has the same position.

The singleton phases of two orders give the same rows, and leave the same variables waiting.  From
there on the two go in step.  What is chosen next depends on the counts and on the variables, which
are the same, and not on the places of the candidates.  The eta columns of the singletons differ,
but they leave all waiting columns as they are, so that both transform the next column in the same
way, find the same pivot row and append the same eta column.
-/

namespace RevisedSimplex

variable {F : Type} [Scalar F]

/-! ### The next candidate -/

namespace Elimination

variable {state : Elimination F} {j k : ℕ} {first second : CandidateColumn F}

/-- What a candidate is compared by: its count of free rows, its number of nonzeros, and its
variable. -/
def rank (state : Elimination F) (column : CandidateColumn F) : ℕ ×ₗ ℕ ×ₗ ℕ :=
  toLex ((rowsAmong state.free column).length, toLex (column.nrNonzeros, column.owner))

theorem Counted.precedes_iff (h : state.Counted) (hj : state.isUnassigned j = true)
    (hfirst : state.candidates[j]? = some first) (hk : state.isUnassigned k = true)
    (hsecond : state.candidates[k]? = some second) :
  Placement.precedes state j k = true ↔ state.rank first < state.rank second
  := by
  have hcount (k : ℕ) (hk : state.isUnassigned k = true) (column : CandidateColumn F)
      (hcolumn : state.candidates[k]? = some column) :
      state.columnCount[k]? = some (rowsAmong state.free column).length := by
    rw [h.column k hk]
    unfold freeRows
    rw [hcolumn]
  unfold Placement.precedes rank
  rw [hcount j hj first hfirst, hcount k hk second hsecond, hfirst, hsecond]
  simp [Prod.Lex.toLex_lt_toLex]

theorem Counted.exists_candidate (h : state.Counted) (hk : state.isUnassigned k = true) :
  ∃ column, state.candidates[k]? = some column
  := by
  obtain ⟨hlt, -⟩ := List.getElem?_eq_some_iff.mp (beq_iff_eq.mp hk)
  rw [h.assigned_length] at hlt
  exact ⟨_, List.getElem?_eq_getElem hlt⟩

/-- The candidate that is chosen has the least rank. -/
theorem Counted.rank_next_le (h : state.Counted) :
    ∀ {rest : List ℕ} {k : ℕ}, (∀ j ∈ k :: rest, state.isUnassigned j = true) →
      ∃ chosen, state.candidates[Placement.next state k rest]? = some chosen
        ∧ ∀ j ∈ k :: rest, ∀ column, state.candidates[j]? = some column →
          state.rank chosen ≤ state.rank column
  | [], k, hall => by
      obtain ⟨chosen, hchosen⟩ := h.exists_candidate (hall k List.mem_cons_self)
      refine ⟨chosen, hchosen, ?_⟩
      intro j hj column hcolumn
      rw [List.mem_singleton.mp hj, hchosen, Option.some_inj] at hcolumn
      rw [hcolumn]
  | j :: rest, k, hall => by
      have hk := hall k List.mem_cons_self
      have hj := hall j (List.mem_cons_of_mem _ List.mem_cons_self)
      have hrest (i : ℕ) (hi : i ∈ rest) : state.isUnassigned i = true :=
        hall i (List.mem_cons_of_mem _ (List.mem_cons_of_mem _ hi))
      obtain ⟨second, hsecond⟩ := h.exists_candidate hk
      obtain ⟨first, hfirst⟩ := h.exists_candidate hj
      have hprecedes := h.precedes_iff hj hfirst hk hsecond
      unfold Placement.next
      rw [List.foldl_cons]
      split
      · rename_i hless
        obtain ⟨chosen, hchosen, hle⟩ := h.rank_next_le (List.forall_mem_cons.mpr ⟨hj, hrest⟩)
        refine ⟨chosen, hchosen, ?_⟩
        intro i hi column hcolumn
        rcases List.mem_cons.mp hi with rfl | hi
        · rw [hsecond, Option.some_inj] at hcolumn
          rw [← hcolumn]
          apply (hle j List.mem_cons_self first hfirst).trans (hprecedes.mp hless).le
        · apply hle i hi column hcolumn
      · rename_i hless
        obtain ⟨chosen, hchosen, hle⟩ := h.rank_next_le (List.forall_mem_cons.mpr ⟨hk, hrest⟩)
        refine ⟨chosen, hchosen, ?_⟩
        intro i hi column hcolumn
        rcases List.mem_cons.mp hi with rfl | hi
        · apply hle i List.mem_cons_self column hcolumn
        · rcases List.mem_cons.mp hi with rfl | hi
          · rw [hfirst, Option.some_inj] at hcolumn
            rw [← hcolumn]
            apply (hle k List.mem_cons_self second hsecond).trans
            apply not_lt.mp fun hlt => hless (hprecedes.mpr hlt)
          · apply hle i (List.mem_cons_of_mem _ hi) column hcolumn

end Elimination

namespace Placement

variable {model : Model F} {indices others : List ℕ} {first second result : Placement F}
  {k v i : ℕ} {context : Context F} {column : DenseVector F}

/-! ### Pivot rows -/

/-- The choice among some entries depends on the counts of their rows. -/
theorem sparsest?_congr {rowCount other : ℕ → ℕ} {entries : SparseVector F}
    (h : ∀ entry ∈ entries, other entry.1 = rowCount entry.1) :
  sparsest? other entries = sparsest? rowCount entries
  := by
  unfold sparsest?
  have hnone : ∀ b : ℕ × F, none = some b → other b.1 = rowCount b.1 := by
    intro b hb
    cases hb
  -- the best entry so far is one of the entries, so that its count is the same as well
  generalize (none : Option (ℕ × F)) = best at hnone
  induction entries generalizing best with
  | nil => rfl
  | cons entry entries ih =>
      obtain ⟨hentry, hentries⟩ := List.forall_mem_cons.mp h
      rw [List.foldl_cons, List.foldl_cons]
      cases best with
      | none =>
          apply ih hentries
          intro b hb
          cases hb
          apply hentry
      | some b =>
          obtain ⟨row, value⟩ := b
          have hrow : other row = rowCount row := hnone (row, value) rfl
          dsimp only
          rw [hentry, hrow]
          apply ih hentries
          intro b hb
          split at hb
          · cases hb
            apply hentry
          · cases hb
            apply hrow

/-- The pivot row depends on the free rows and their counts. -/
theorem pivotRow?_congr {state other : Elimination F}
    (hfree : ∀ i, other.isFree i = state.isFree i)
    (hcount : ∀ i, state.isFree i = true → other.rowCount[i]? = state.rowCount[i]?)
    (column : DenseVector F) :
  pivotRow? context other column = pivotRow? context state column
  := by
  unfold pivotRow?
  simp only [hfree]
  congr 1
  funext entry
  split
  · rfl
  · split
    · rfl
    · congr 1
      apply sparsest?_congr
      intro entry hentry
      obtain ⟨pair, hpair, rfl⟩ := List.mem_map.mp (List.mem_filter.mp hentry).1
      have hrow := (List.mem_filter.mp hpair).2
      rw [Bool.and_eq_true] at hrow
      rw [hcount _ hrow.1]

/-- The count of a free row is the number of waiting variables with a nonzero in it. -/
theorem Placed.rowCount_eq {placement : Placement F} (h : placement.Placed model indices)
    (hi : placement.elimination.isFree i = true) :
  placement.elimination.rowCount[i]?
    = some (placement.elimination.waiting.countP fun v => model.hits v i)
  := by
  obtain ⟨columns, -, hnodup, hmem, hcount⟩ := h.counted.row i hi
  have hperm : (columns.filter placement.elimination.isUnassigned).Perm
      (((List.range placement.elimination.candidates.length).filter
        placement.elimination.isUnassigned).filter fun k => placement.elimination.hits k i) := by
    apply (List.perm_ext_iff_of_nodup (hnodup.filter _) (h.lists.nodup.filter _)).mpr
    intro k
    rw [List.mem_filter, List.mem_filter, h.lists.mem_iff, hmem, and_comm]
  rw [hcount, List.countP_eq_length_filter, hperm.length_eq, ← List.countP_eq_length_filter]
  unfold Elimination.waiting
  rw [List.countP_filterMap]
  congr 1
  apply List.countP_congr
  intro k hk
  obtain ⟨candidate, hcandidate⟩ := h.exists_candidate ((h.lists.mem_iff k).mp hk)
  rw [hcandidate, h.hits_eq hcandidate]
  rfl

/-! ### In step -/

/-- The accounts of a placement without singular variables, with the candidates of the model. -/
structure Orderly (model : Model F) (indices : List ℕ) (placement : Placement F) : Prop where
  accounted : placement.Accounted model indices
  named : ∀ column ∈ placement.elimination.candidates,
    candidate? model column.owner = some column
  singular : placement.singular = []

/-- The same variables have rows, and waiting columns are transformed in the same way. -/
structure Alike (model : Model F) (first second : Placement F) : Prop where
  positions : second.positions = first.positions
  solves : ∀ v ∈ first.elimination.waiting, ∀ dense, model.denseColumn? v = some dense →
    second.file.applyRight? dense = first.file.applyRight? dense

theorem Orderly.transforms {placement : Placement F} (h : placement.Orderly model indices)
    (hk : placement.elimination.isUnassigned k = true)
    (hplace : placement.placeTransformed? context k = some result)
    (hsingular : result.singular = []) :
  result.Orderly model indices
  := by
  obtain ⟨_, _, -, htransforms⟩ := h.accounted.placed.transforms hk hplace
  refine ⟨h.accounted.placeTransformed? hk hplace, ?_, hsingular⟩
  rw [htransforms.candidates]
  apply h.named

/-- A waiting variable is that of an unassigned candidate. -/
theorem Orderly.exists_of_mem_waiting {placement : Placement F}
    (h : placement.Orderly model indices) {candidate : CandidateColumn F}
    (hcandidate : candidate? model candidate.owner = some candidate)
    (hwaits : candidate.owner ∈ placement.elimination.waiting) :
  ∃ k, placement.elimination.isUnassigned k = true
    ∧ placement.elimination.candidates[k]? = some candidate
  := by
  obtain ⟨k, other, hk, hother, howner⟩ := Elimination.mem_waiting.mp hwaits
  have hnamed := h.named other (List.mem_of_getElem? hother)
  rw [howner, hcandidate, Option.some_inj] at hnamed
  rw [hnamed]
  exact ⟨k, hk, hother⟩

/-- The same variables wait when the same ones have rows. -/
theorem Orderly.perm_waiting (hfirst : first.Orderly model indices)
    (hsecond : second.Orderly model others) (hperm : indices.Perm others)
    (hpositions : second.positions = first.positions) :
  second.elimination.waiting.Perm first.elimination.waiting
  := by
  have hone := hfirst.accounted.structurals
  have htwo := hsecond.accounted.structurals
  have hfilled : second.filledPositions = first.filledPositions := by
    unfold filledPositions
    rw [hpositions]
  rw [hfirst.singular] at hone
  rw [hsecond.singular, hfilled] at htwo
  apply (List.perm_append_right_iff _).mp
  apply htwo.trans
  apply (hperm.symm.filter _).trans
  apply hone.symm

section Steps

variable (hperm : indices.Perm others) (hfirst : first.Orderly model indices)
  (hsecond : second.Orderly model others) (halike : first.Alike model second)

include hperm hfirst hsecond halike

omit hperm in
theorem Alike.isFree_eq (i : ℕ) :
  second.elimination.isFree i = first.elimination.isFree i
  := by
  rw [Bool.eq_iff_iff, hsecond.accounted.placed.free, hfirst.accounted.placed.free,
    halike.positions]

/-- Both go on with the same candidate. -/
theorem Alike.next_eq {k j : ℕ} {rest other : List ℕ} (hlists : first.Lists (k :: rest))
    (hotherLists : second.Lists (j :: other)) :
  ∃ candidate, first.elimination.candidates[next first.elimination k rest]? = some candidate
    ∧ second.elimination.candidates[next second.elimination j other]? = some candidate
  := by
  have hwaiting := hfirst.perm_waiting hsecond hperm halike.positions
  have hrank (column : CandidateColumn F) :
      second.elimination.rank column = first.elimination.rank column := by
    unfold Elimination.rank Elimination.rowsAmong
    have hfree := halike.isFree_eq hfirst hsecond
    unfold Elimination.isFree at hfree
    simp only [hfree]
  obtain ⟨one, hone, honeLe⟩ := hfirst.accounted.placed.counted.rank_next_le
    (fun i hi => (hlists.mem_iff i).mp hi)
  obtain ⟨two, htwo, htwoLe⟩ := hsecond.accounted.placed.counted.rank_next_le
    (fun i hi => (hotherLists.mem_iff i).mp hi)
  have honeNamed := hfirst.named one (List.mem_of_getElem? hone)
  have htwoNamed := hsecond.named two (List.mem_of_getElem? htwo)
  have honeWaits : one.owner ∈ first.elimination.waiting := Elimination.mem_waiting.mpr
    ⟨_, one, (hlists.mem_iff _).mp (next_mem _ k rest), hone, rfl⟩
  have htwoWaits : two.owner ∈ second.elimination.waiting := Elimination.mem_waiting.mpr
    ⟨_, two, (hotherLists.mem_iff _).mp (next_mem _ j other), htwo, rfl⟩
  obtain ⟨i, hi, hcandidate⟩ :=
    hfirst.exists_of_mem_waiting htwoNamed (hwaiting.mem_iff.mp htwoWaits)
  have hle := honeLe i ((hlists.mem_iff i).mpr hi) two hcandidate
  obtain ⟨i, hi, hcandidate⟩ :=
    hsecond.exists_of_mem_waiting honeNamed (hwaiting.mem_iff.mpr honeWaits)
  have hge := htwoLe i ((hotherLists.mem_iff i).mpr hi) one hcandidate
  rw [hrank, hrank] at hge
  have howner : one.owner = two.owner := by
    have hsame := congrArg ofLex (le_antisymm hle hge)
    unfold Elimination.rank at hsame
    simp only [ofLex_toLex, Prod.mk_inj, toLex_inj] at hsame
    apply hsame.2.2
  rw [howner, htwoNamed, Option.some_inj] at honeNamed
  rw [honeNamed] at htwo
  exact ⟨one, hone, htwo⟩

/-- When the one transforms and places a candidate, so does the other one, in the same row. -/
theorem Alike.placeTransformed? (hready : second.Ready model others) {j : ℕ}
    (hk : first.elimination.isUnassigned k = true)
    (hj : second.elimination.isUnassigned j = true) {candidate : CandidateColumn F}
    (hone : first.elimination.candidates[k]? = some candidate)
    (htwo : second.elimination.candidates[j]? = some candidate)
    (hplace : first.placeTransformed? context k = some result) (hsingular : result.singular = []) :
  ∃ last, second.placeTransformed? context j = some last ∧ last.Ready model others
    ∧ last.Orderly model others ∧ result.Alike model last
  := by
  have hwaiting := hfirst.perm_waiting hsecond hperm halike.positions
  have hfree := halike.isFree_eq hfirst hsecond
  obtain ⟨other, column, hother, htransforms⟩ := hfirst.accounted.placed.transforms hk hplace
  have hsame : other = candidate := Option.some_inj.mp (hother.symm.trans hone)
  subst hsame
  obtain ⟨dense, solved, hdense, hsolved, rfl⟩ := htransforms.solved
  have hwaits : other.owner ∈ first.elimination.waiting :=
    Elimination.mem_waiting.mpr ⟨k, other, hk, hone, rfl⟩
  rcases htransforms.outcome with
    ⟨row, eta, inverse, hchoice, hrow, heta, hinverse, hfile, -, hpositions, -⟩ | ⟨-, -, -, hnew⟩
  · have hsecondSolved : second.file.applyRight? dense = some solved := by
      rw [halike.solves _ hwaits dense hdense, hsolved]
    have hsecondChoice : pivotRow? context second.elimination
        (solved.roundRelative context.tolerances.drop) = some row := by
      rw [← hchoice]
      apply pivotRow?_congr hfree
      intro i hi
      rw [hfirst.accounted.placed.rowCount_eq hi,
        hsecond.accounted.placed.rowCount_eq (by rw [hfree, hi]), hwaiting.countP_eq]
    have hfits : eta.Fits (model.nrRows + 1) := by
      have hlength : solved.length = model.nrRows + 1 := by
        obtain ⟨last, hlast, hlength⟩ :=
          hready.shaped.fits.exists_applyRight? (Model.length_of_denseColumn? hdense)
        rw [hsecondSolved, Option.some_inj] at hlast
        rw [hlast, hlength]
      have hfits := (EtaColumn.ofDense?_spec heta).1
      rw [DenseVector.length_roundRelative, hlength] at hfits
      apply hfits
    obtain ⟨committed, last, rows, columns, hcommit, hplaced, hlastReady⟩ :=
      hready.exists_pivot hj (by rw [hfree, hrow]) hfits (EtaColumn.pivot_of_invert? hinverse)
    have hlast : second.placeTransformed? context j = some last := by
      unfold Placement.placeTransformed?
      rw [htwo, Option.bind_eq_bind, Option.bind_some,
        ← hsecond.accounted.placed.denseColumn?_eq htwo, hdense]
      simp only [Option.bind_eq_bind, Option.bind_some, hsecondSolved, hsecondChoice, heta, hcommit,
        hplaced]
    obtain ⟨lastInverse, hlastInverse, hcommitted⟩ := commit?_spec hcommit
    rw [hinverse, Option.some_inj] at hlastInverse
    subst hlastInverse hcommitted
    obtain ⟨again, elimination, hagain, -, -, -, -, -, rfl⟩ := place?_spec hplaced
    have hsame : again = other := Option.some_inj.mp (hagain.symm.trans htwo)
    subst hsame
    refine ⟨_, hlast, hlastReady, hsecond.transforms hj hlast hsecond.singular, ?_, ?_⟩
    · change second.positions.set row _ = _
      rw [hpositions, halike.positions]
    · intro v hv other hother
      have hwaits := htransforms.waiting.mem_iff.mpr (List.mem_cons_of_mem _ hv)
      rw [EtaFile.applyRight?_of_columns hfile, ← halike.solves v hwaits other hother]
      apply EtaFile.applyRight?_of_columns
      apply EtaFile.columns_append
  · rw [hnew] at hsingular
    simp at hsingular

end Steps

/-- A variable that is singular stays so. -/
theorem singular_ne_nil_of_placeTransformed? {placement : Placement F}
    (h : placement.singular ≠ []) (hplace : placement.placeTransformed? context k = some result) :
  result.singular ≠ []
  := by
  obtain ⟨candidate, raw, solved, -, -, -, hcases⟩ := placeTransformed?_spec hplace
  rcases hcases with ⟨row, column, committed, rows, columns, -, -, hcommit, hplaced⟩
    | ⟨-, elimination, -, rfl⟩
  · obtain ⟨inverse, -, rfl⟩ := commit?_spec hcommit
    obtain ⟨_, _, -, -, -, -, -, -, rfl⟩ := place?_spec hplaced
    apply h
  · simp

/-- When the last phase of the one ends without singular variables, so does that of the other one,
with the same positions. -/
theorem Alike.placeRest? (hperm : indices.Perm others) :
    ∀ {count : ℕ} {remaining other : List ℕ} {first second result : Placement F},
      remaining.length = count → other.length = count → first.Lists remaining →
      second.Lists other → first.Orderly model indices → second.Orderly model others →
      second.Ready model others → first.Alike model second →
      placeRest? context count remaining first = some result → result.singular = [] →
      ∃ last, placeRest? context count other second = some last ∧ last.Ready model others
        ∧ last.positions = result.positions ∧ last.singular = []
  | 0, [], [], first, second, result, _, _, _, _, _, hsecond, hready, halike, h, _ => by
      cases h
      exact ⟨second, rfl, hready, halike.positions, hsecond.singular⟩
  | count + 1, k :: rest, j :: other, first, second, result, hlength, hotherLength, hlists,
      hotherLists, hfirst, hsecond, hready, halike, h, hsingular => by
      have hchosen := next_mem first.elimination k rest
      have hotherChosen := next_mem second.elimination j other
      obtain ⟨candidate, hone, htwo⟩ :=
        halike.next_eq hperm hfirst hsecond hlists hotherLists
      rw [Placement.placeRest?] at h
      obtain ⟨following, hfollowing, h⟩ := Option.bind_eq_some_iff.mp h
      have hregular : following.singular = [] := by
        by_contra hne
        apply placeRest?_induction (motive := fun p => p.singular ≠ [])
          singular_ne_nil_of_placeTransformed? hne h hsingular
      have hk := (hlists.mem_iff _).mp hchosen
      obtain ⟨last, hlast, hlastReady, hlastOrderly, hlastAlike⟩ :=
        halike.placeTransformed? hperm hfirst hsecond hready hk
          ((hotherLists.mem_iff _).mp hotherChosen) hone htwo hfollowing hregular
      obtain ⟨final, hfinal, hspec⟩ := Alike.placeRest? hperm
        (by rw [List.length_erase_of_mem hchosen, hlength]; rfl)
        (by rw [List.length_erase_of_mem hotherChosen, hotherLength]; rfl)
        (hlists.placeTransformed? hfollowing) (hotherLists.placeTransformed? hlast)
        (hfirst.transforms hk hfollowing hregular) hlastOrderly hlastReady hlastAlike h hsingular
      refine ⟨final, ?_, hspec⟩
      rw [Placement.placeRest?, hlast]
      apply hfinal

end Placement

/-- Every waiting variable is listed once. -/
theorem Placement.Placed.length_waiting {model : Model F} {indices : List ℕ}
    {placement : Placement F} (h : placement.Placed model indices) :
  ((List.range placement.elimination.candidates.length).filter
      placement.elimination.isUnassigned).length
    = placement.elimination.waiting.length
  := by
  unfold Elimination.waiting
  rw [List.length_filterMap_eq_countP, List.countP_eq_length.mpr]
  intro k hk
  obtain ⟨candidate, hcandidate⟩ := h.exists_candidate ((h.lists.mem_iff k).mp hk)
  rw [hcandidate]
  rfl

/-- Placing the variables in another order gives the same positions, when none is singular. -/
theorem PlacedBasis.of?_perm [ReflexiveZero F] {context : Context F} {model : Model F}
    {first second : List ℕ} {placed : PlacedBasis F} (hperm : first.Perm second)
    (hnodup : first.Nodup) (hindices : ∀ v ∈ first, 0 < v ∧ v < model.nrVariables)
    (hlength : first.length = model.nrRows)
    (h : PlacedBasis.of? context model first = some placed) (hregular : placed.singular = []) :
  ∃ other, PlacedBasis.of? context model second = some other
    ∧ other.positions = placed.positions ∧ other.singular = []
  := by
  have hotherNodup := hperm.nodup_iff.mp hnodup
  have hotherIndices : ∀ v ∈ second, 0 < v ∧ v < model.nrVariables := by
    intro v hv
    apply hindices v (hperm.mem_iff.mpr hv)
  obtain ⟨start, singles, rest, last, _, hstart, hsingles, hrest, hlast, -, -, hpositions,
    hsingular⟩ := PlacedBasis.of?_spec h
  obtain ⟨-, hlastPositions, hlastSingular⟩ := Placement.pivots_of_commitDeferred? hlast
  rw [hsingular, hlastSingular] at hregular
  -- the singleton phase of the first order ends in a saturated placement
  obtain ⟨hstartRegular, -⟩ := Placement.start?_regular hnodup hindices hstart
  obtain ⟨hsinglesRegular, -⟩ := Placement.placeSingletons?_induction (motive := fun _ => True)
    hstartRegular hnodup (fun _ _ _ => trivial) trivial hsingles
  have hshaped : singles.Shaped (model.nrRows + 1) := Placement.takeSingletons?_induction
    (fun h => h.takeRow?) (fun h => h.takeColumn?) (Placement.shaped_of_start? hstart) hsingles
  have hsaturated := hsinglesRegular.saturated hshaped hnodup (fun v hv => (hindices v hv).1)
    hlength hsinglesRegular.placed.lists hrest hregular
  -- that of the second order gives the same rows
  obtain ⟨otherStart, hotherStart, hotherReady⟩ :=
    Placement.exists_start?_ready (hotherNodup.filter _) hotherIndices
  have hphase : ∃ others,
      otherStart.placeSingletons? context.tolerances.factorizationPivot = some others
        ∧ others.Ready model second :=
    Placement.exists_takeSingletons? (fun row queues h => h.exists_takeRow? _ row queues)
      (fun k queues h => h.exists_takeColumn? _ k queues) _ _ hotherReady
  obtain ⟨others, hothers, hready⟩ := hphase
  obtain ⟨-, hothersRegular, hsame⟩ := Placement.positions_of_placeSingletons? hperm hnodup
    hindices hstart hsingles hotherStart hothers hsaturated
  have horderly : singles.Orderly model first :=
    ⟨hsinglesRegular.toAccounted, hsinglesRegular.named, hsinglesRegular.singular⟩
  have hotherOrderly : others.Orderly model second :=
    ⟨hothersRegular.toAccounted, hothersRegular.named, hothersRegular.singular⟩
  have hwaiting := horderly.perm_waiting hotherOrderly hperm hsame
  have hsize := hothersRegular.placed.length_waiting
  rw [hwaiting.length_eq, ← hsinglesRegular.placed.length_waiting] at hsize
  -- from there on the two go in step
  have halike : singles.Alike model others := by
    refine ⟨hsame, ?_⟩
    intro v hv dense hdense
    rw [hsinglesRegular.applyRight?_eq hshaped hv hdense,
      hothersRegular.applyRight?_eq hready.shaped (hwaiting.mem_iff.mpr hv) hdense]
  obtain ⟨otherRest, hotherRest, hrestReady, hrestPositions, hrestSingular⟩ :=
    Placement.Alike.placeRest? hperm rfl hsize hsinglesRegular.placed.lists
      hothersRegular.placed.lists horderly hotherOrderly hready halike hrest hregular
  rw [← hsize] at hotherRest
  obtain ⟨otherLast, hotherLast, hstaged⟩ := hrestReady.exists_commitDeferred?
  obtain ⟨-, hotherPositions, hotherSingular⟩ :=
    Placement.pivots_of_commitDeferred? hotherLast
  have hzero : 0 ∉ second := fun h => lt_irrefl 0 (hotherIndices 0 h).1
  have hfilled : otherLast.filledPositions = placed.positions := by
    rw [hpositions]
    unfold Placement.filledPositions
    rw [hotherPositions, hrestPositions, hlastPositions]
  refine ⟨_, PlacedBasis.of?_of_phases hzero hotherStart hothers hotherRest hotherLast hstaged,
    hfilled, ?_⟩
  rw [hotherSingular, hrestSingular]

/-! ### Factorizing -/

/-- Three columns of doubles, any two of them with a row in common. -/
def Model.triangle : Model Float where
  matrix := ⟨[[(0, 1), (1, 1)], [(1, 1), (2, 1)], [(0, 1), (2, 1)]], 3, by decide +kernel⟩
  cost := [1, 2, 3]
  rightHandSide := [2, 2, 2]
  relations := [.greater, .greater, .greater]
  goal := .minimize
  bounds := List.replicate 3 (.atMost 0) ++ List.replicate 3 (.atLeast 0)
  cost_length := rfl
  rightHandSide_length := rfl
  relations_length := rfl
  bounds_length := rfl

namespace ProductForm

/-- A factorization does not depend on the order of the variables.

Let as many distinct variables as there are rows be given in two orders.  If a factorization in the
first order leaves none of them singular, one in the second order has a result too, leaves none
singular, and gives every variable the same position.  The two may start from different forms. -/
theorem factorize?_perm [ReflexiveZero F] {context : Context F} {model : Model F}
    {first second : List ℕ} {form other : ProductForm F}
    {outcome : Outcome (ProductForm F) Factorization} (hsize : other.nrRows = model.nrRows)
    (hperm : first.Perm second) (hnodup : first.Nodup)
    (hindices : ∀ v ∈ first, 0 < v ∧ v < model.nrVariables)
    (hlength : first.length = model.nrRows)
    (h : form.factorize? context model first = some outcome)
    (hregular : outcome.result.singular = []) :
  ∃ last, other.factorize? context model second = some last
    ∧ last.result.singular = [] ∧ last.result.positions = outcome.result.positions
  := by
  obtain ⟨-, placed, hplaced, hresult, -⟩ := factorize?_spec h
  rw [hresult] at hregular ⊢
  obtain ⟨again, hagain, hpositions, hsingular⟩ :=
    PlacedBasis.of?_perm hperm hnodup hindices hlength hplaced hregular
  obtain ⟨last, hlast, hlastResult, -⟩ := factorize?_of_placed hsize hagain
  refine ⟨last, hlast, ?_⟩
  rw [hlastResult]
  exact ⟨hsingular, hpositions⟩

/-- Three columns without singletons, in two orders. -/
theorem factorize?_perm_triangle :
  [4, 5, 6].Perm [6, 4, 5] ∧ (identity 3 : ProductForm Float).nrRows = Model.triangle.nrRows
    ∧ ∃ outcome last,
      factorize? Context.doubles Model.triangle [4, 5, 6] (identity 3) = some outcome
        ∧ outcome.result.positions = [0, 4, 6, 5] ∧ outcome.result.singular = []
        ∧ factorize? Context.doubles Model.triangle [6, 4, 5] (identity 3) = some last
        ∧ last.result.singular = [] ∧ last.result.positions = outcome.result.positions
  := by
  have hperm : [4, 5, 6].Perm [6, 4, 5] := by decide
  have hresult : ((factorize? Context.doubles Model.triangle [4, 5, 6] (identity 3)).map
      fun outcome => (outcome.result.positions, outcome.result.singular))
        = some ([0, 4, 6, 5], []) := by
    decide +kernel
  obtain ⟨outcome, houtcome, hpair⟩ := Option.map_eq_some_iff.mp hresult
  rw [Prod.mk_inj] at hpair
  have hsize : (identity 3 : ProductForm Float).nrRows = Model.triangle.nrRows := rfl
  obtain ⟨last, hlast, hspec⟩ :=
    factorize?_perm hsize hperm (by decide) (by decide) rfl houtcome hpair.2
  exact ⟨hperm, hsize, outcome, last, houtcome, hpair.1, hpair.2, hlast, hspec⟩

end ProductForm

end RevisedSimplex
