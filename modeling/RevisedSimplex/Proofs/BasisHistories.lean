import RevisedSimplex.Proofs.IterateSizes
import RevisedSimplex.Proofs.ModelColumns

/-!
# Histories of a basis

A table is `Reached` when it is that of all slacks, or made of given parts, and when it comes from
a reached one by an exchange, a flip, the change of a side or by taking over other positions.  What
every such table promises to its readers is `Sound`: the two lists are inverse to each other, the
counts are right, and the table is the one that its own basic variables and sides describe.

Parts describe a table exactly when they are as many distinct variables as there are rows, none of
them the objective dummy, and when there are sides for more variables than rows.  The tables
themselves are followed here, which do not carry a proof that they agree.
-/

namespace RevisedSimplex

namespace BasisTable

variable {F : Type} [Scalar F] {table other after : BasisTable} {v nrRows : ℕ}
  {basic : List ℕ} {sides : List Side}

/-! ### Tables of given parts -/

/-- Distinct variables without a position can be placed one after the other. -/
theorem exists_places {vs : List ℕ} (hnodup : vs.Nodup)
    (hfree : ∀ v ∈ vs, table.positions[v]? = some none) :
  ∃ after, vs.foldlM place table = .ok after
  := by
  induction vs generalizing table with
  | nil => exact ⟨table, rfl⟩
  | cons v vs ih =>
      obtain ⟨hnot, hnodup⟩ := List.nodup_cons.mp hnodup
      obtain ⟨hv, hfree⟩ := List.forall_mem_cons.mp hfree
      rw [List.foldlM_cons]
      unfold place
      rw [hv]
      apply ih hnodup
      intro w hw
      have hne : v ≠ w := by
        rintro rfl
        apply hnot hw
      exact (List.getElem?_set_ne hne).trans (hfree w hw)

/-- Variables that can be placed are distinct and have no position. -/
theorem free_of_places {vs : List ℕ} (h : vs.foldlM place table = .ok after) :
  vs.Nodup ∧ ∀ v ∈ vs, table.positions[v]? = some none
  := by
  induction vs generalizing table with
  | nil => exact ⟨List.nodup_nil, fun v hv => absurd hv List.not_mem_nil⟩
  | cons v vs ih =>
      rw [List.foldlM_cons] at h
      cases hplace : table.place v with
      | error e =>
          rw [hplace] at h
          cases h
      | ok next =>
          rw [hplace] at h
          obtain ⟨hnodup, hfree⟩ := ih h
          obtain ⟨hv, rfl⟩ := place_eq hplace
          have hlt : v < table.positions.length := (List.getElem?_eq_some_iff.mp hv).1
          have hother (w : ℕ) (hw : w ∈ vs) : v ≠ w ∧ table.positions[w]? = some none := by
            have hposition := hfree w hw
            by_cases hne : v = w
            · subst hne
              rw [List.getElem?_set_self hlt] at hposition
              cases hposition
            · rw [List.getElem?_set_ne hne] at hposition
              exact ⟨hne, hposition⟩
          constructor
          · apply List.nodup_cons.mpr ⟨fun hmem => (hother v hmem).1 rfl, hnodup⟩
          · intro w hw
            rcases List.mem_cons.mp hw with rfl | hw
            · apply hv
            · apply (hother w hw).2

/-- Only the objective dummy has a position in the empty table. -/
theorem positions_empty_iff :
  (empty nrRows sides).positions[v]? = some none ↔ 1 ≤ v ∧ v < sides.length
  := by
  cases v with
  | zero => simp [empty, List.getElem?_set]
  | succ v => simp [empty, List.getElem?_replicate]

/-- The parts that describe a table. -/
theorem exists_ofParts_iff :
  (∃ table, ofParts nrRows basic sides = .ok table)
    ↔ basic.length = nrRows ∧ nrRows + 1 ≤ sides.length ∧ basic.Nodup
      ∧ ∀ v ∈ basic, 1 ≤ v ∧ v < sides.length
  := by
  unfold ofParts
  constructor
  · rintro ⟨table, h⟩
    split at h
    · cases h
    rename_i hlength
    split at h
    · cases h
    rename_i hsides
    obtain ⟨hnodup, hfree⟩ := free_of_places h
    refine ⟨not_not.mp hlength, by omega, hnodup, ?_⟩
    intro v hv
    apply positions_empty_iff.mp (hfree v hv)
  · rintro ⟨hlength, hsides, hnodup, hrange⟩
    rw [if_neg (not_not.mpr hlength), if_neg (by omega)]
    apply exists_places hnodup
    intro v hv
    apply positions_empty_iff.mpr (hrange v hv)

/-- Tables that agree are determined by one of the two lists. -/
theorem Agrees.ext (h : table.Agrees) (hother : other.Agrees) (hrows : table.nrRows = other.nrRows)
    (howners : table.owners = other.owners) (hsides : table.sides = other.sides) :
  table = other
  := by
  have hlength : table.positions.length = other.positions.length := by
    rw [← h.length_sides, hsides, hother.length_sides]
  have hpositions : table.positions = other.positions := by
    apply List.ext_getElem hlength
    intro v hv hv'
    apply Option.ext
    intro i
    have hiff := (h.inverse i v).symm.trans (howners ▸ hother.inverse i v)
    rwa [List.getElem?_eq_getElem hv, List.getElem?_eq_getElem hv', Option.some_inj,
      Option.some_inj] at hiff
  cases table
  cases other
  simp_all

/-- A table is the one that its basic variables and sides describe. -/
theorem Consistent.ofParts_eq_self (h : table.Consistent) :
  ofParts table.nrRows table.basic table.sides = .ok table
  := by
  have hlength : table.basic.length = table.nrRows := by
    unfold BasisTable.basic
    rw [List.length_tail, h.length_owners, Nat.add_sub_cancel]
  have hrange (v : ℕ) (hv : v ∈ table.basic) : 1 ≤ v ∧ v < table.sides.length := by
    obtain ⟨hne, hv⟩ := h.mem_basic_iff.mp hv
    rw [h.length_sides]
    exact ⟨Nat.one_le_iff_ne_zero.mpr hne, h.lt_of_mem_owners hv⟩
  have hle : table.nrRows + 1 ≤ table.sides.length := by
    rw [← h.length_owners, ← h.countP_positions, h.length_sides]
    apply List.countP_le_length
  obtain ⟨other, hother⟩ := exists_ofParts_iff.mpr ⟨hlength, hle, h.nodup_basic, hrange⟩
  obtain ⟨hconsistent, hrows, howners, hsides⟩ := ofParts_eq hother
  rw [hother]
  congr
  apply hconsistent.toAgrees.ext h.toAgrees hrows _ hsides
  rw [howners, h.owners_eq]

/-! ### Sound tables -/

/-- What a table promises to its readers. -/
structure Sound (table : BasisTable) : Prop where
  /-- The table passes its own check. -/
  checked : table.isConsistent = true
  /-- The objective dummy is at position `0`. -/
  dummy : table.variableAt? 0 = some 0
  /-- The positions `0` to `m`, and no others, have variables, which exist. -/
  filled : ∀ i, (∃ v < table.nrVariables, table.variableAt? i = some v) ↔ i ≤ table.nrRows
  /-- The position of a variable is where the variable is. -/
  inverse : ∀ i v, table.positionOf? v = some i ↔ table.variableAt? i = some v
  /-- There are as many basic variables as rows. -/
  count : table.nrBasic = table.nrRows
  /-- The nonbasic variables are listed in increasing order. -/
  sorted : table.nonbasic.Pairwise (· < ·)
  /-- The nonbasic variables are those that are at no position. -/
  others : ∀ v, v ∈ table.nonbasic
    ↔ v < table.nrVariables ∧ ∀ i ≤ table.nrRows, table.variableAt? i ≠ some v
  /-- The basic variables and the sides describe the table. -/
  rebuilt : ofParts table.nrRows table.basic table.sides = .ok table

/-- Tables that agree are sound. -/
theorem Consistent.sound (h : table.Consistent) :
  table.Sound
  where
  checked := h.isConsistent
  dummy := h.first
  filled i := by
    rw [← Nat.lt_succ_iff, Nat.succ_eq_add_one, ← h.length_owners]
    constructor
    · rintro ⟨v, -, hi⟩
      apply (List.getElem?_eq_some_iff.mp hi).1
    · intro hi
      exact ⟨_, h.lt_of_mem_owners (List.getElem_mem hi), List.getElem?_eq_getElem hi⟩
  inverse _ _ := h.positionOf?_eq_some_iff
  count := h.nrBasic_eq
  sorted := table.pairwise_nonbasic
  others v := by
    rw [mem_nonbasic_iff, isNonbasic_iff_isBasic, h.isBasic_iff, List.mem_iff_getElem?,
      not_exists]
    apply and_congr_right
    intro _
    constructor
    · intro hnot i _
      apply hnot i
    · intro hnot i hi
      have hlt := (List.getElem?_eq_some_iff.mp hi).1
      rw [h.length_owners] at hlt
      apply hnot i (Nat.le_of_lt_succ hlt) hi
  rebuilt := h.ofParts_eq_self

/-! ### Histories -/

/-- The ways to change a table. -/
inductive Change (F : Type) [Scalar F] where
  /-- A variable comes into a row. -/
  | exchange (row entering : ℕ)
  /-- A nonbasic variable goes to its other side. -/
  | flip (v : ℕ)
  /-- A side is stored for a variable. -/
  | setSide (v : ℕ) (side : Side)
  /-- The positions are taken over, with the bounds of a model for the variables that lose theirs. -/
  | applyPositions (owners : List ℕ) (model : Model F)

/-- The table after a change. -/
def Change.after? (table : BasisTable) : Change F → Option BasisTable
  | exchange row entering => (table.exchange? row entering).map Prod.snd
  | flip v => table.flip? v
  | setSide v side => table.setSide? v side
  | applyPositions owners model => table.applyPositions? owners model

/-- The changes that may be asked for. -/
def Change.Allowed (table : BasisTable) : Change F → Prop
  | exchange row entering => 1 ≤ row ∧ row ≤ table.nrRows ∧ entering ∈ table.nonbasic
  | flip v => v ∈ table.nonbasic
  | setSide v _ => v < table.nrVariables
  | applyPositions owners model =>
      owners.length = table.nrRows + 1 ∧ owners[0]? = some 0 ∧ owners.Nodup
        ∧ (∀ v ∈ owners, v < table.nrVariables) ∧ table.nrVariables ≤ model.nrVariables

/-- A change keeps the tables inverse to each other. -/
theorem Consistent.change (h : table.Consistent) {change : Change F}
    (happly : change.after? table = some after) :
  after.Consistent
  := by
  cases change with
  | exchange row entering =>
      obtain ⟨⟨leaving, exchanged⟩, hexchange, rfl⟩ := Option.map_eq_some_iff.mp happly
      apply h.exchange? hexchange
  | flip v => apply h.flip? happly
  | setSide v side => apply h.setSide? happly
  | applyPositions owners model => apply h.applyPositions? happly

/-- A change that may be asked for can be made. -/
theorem Consistent.exists_change (h : table.Consistent) {change : Change F}
    (hallowed : change.Allowed table) :
  ∃ after, change.after? table = some after
  := by
  cases change with
  | exchange row entering =>
      obtain ⟨hrow, hle, hentering⟩ := hallowed
      obtain ⟨leaving, after, hexchange⟩ := h.exists_exchange?
        (Nat.one_le_iff_ne_zero.mp hrow) hle (mem_nonbasic_iff.mp hentering)
      exact ⟨after, Option.map_eq_some_iff.mpr ⟨_, hexchange, rfl⟩⟩
  | flip v => apply h.exists_flip? (mem_nonbasic_iff.mp hallowed)
  | setSide v side => apply exists_setSide? hallowed
  | applyPositions owners model =>
      obtain ⟨hlength, hfirst, hnodup, hrange, hvariables⟩ := hallowed
      apply h.exists_applyPositions? hfirst hlength hnodup hrange
      intro v hv
      obtain ⟨bounds, hbounds⟩ := Model.exists_bounds? (lt_of_lt_of_le hv hvariables)
      rw [hbounds]
      rfl

/-- The tables that come from a new one by changes. -/
inductive Reached (F : Type) [Scalar F] : BasisTable → Prop
  | slack (model : Model F) : Reached F (slack model)
  | ofParts {nrRows : ℕ} {basic : List ℕ} {sides : List Side} {table : BasisTable} :
      ofParts nrRows basic sides = .ok table → Reached F table
  | change {table after : BasisTable} (change : Change F) :
      Reached F table → change.after? table = some after → Reached F after

/-- The tables of a reached basis agree. -/
theorem Reached.consistent (h : Reached F table) :
  table.Consistent
  := by
  induction h with
  | slack model => exact slack_consistent model
  | ofParts h => exact (ofParts_eq h).1
  | change change _ happly ih => exact ih.change happly

/-- Every reached table is sound, and so is the one that any change makes of it that may be asked
for.  Parts describe a table exactly when they are distinct variables with positions to take. -/
theorem sound_of_reached (F : Type) [Scalar F] :
  (∀ table, Reached F table → table.Sound
    ∧ ∀ change : Change F, change.Allowed table →
      ∃ after, change.after? table = some after ∧ Reached F after)
    ∧ ∀ nrRows basic sides, (∃ table, ofParts nrRows basic sides = .ok table)
      ↔ basic.length = nrRows ∧ nrRows + 1 ≤ sides.length ∧ basic.Nodup
        ∧ ∀ v ∈ basic, 1 ≤ v ∧ v < sides.length
  := by
  refine ⟨?_, fun nrRows basic sides => exists_ofParts_iff⟩
  intro table h
  refine ⟨h.consistent.sound, ?_⟩
  intro change hallowed
  obtain ⟨after, happly⟩ := h.consistent.exists_change hallowed
  exact ⟨after, happly, h.change change happly⟩

/-- The slacks of the sample model, the first one exchanged, and then two positions swapped while
the second slack leaves. -/
theorem sound_of_reached_sample :
  ∃ exchanged taken, (Change.exchange 1 3 : Change ℚ).after? (slack Model.sample) = some exchanged
    ∧ (Change.applyPositions [0, 4, 3] Model.sample).after? exchanged = some taken
    ∧ taken.Sound ∧ taken.nonbasic = [1, 2]
    ∧ taken.positions = [some 0, none, none, some 2, some 1]
  := by
  obtain ⟨-, hchanges⟩ := (sound_of_reached ℚ).1 _ (.slack .sample)
  obtain ⟨exchanged, hexchange, hreached⟩ := hchanges (.exchange 1 3)
    ⟨by decide, by decide, by decide +kernel⟩
  have htable : (Change.exchange 1 3 : Change ℚ).after? (slack Model.sample) = some
      { nrRows := 2
        owners := [0, 3, 2]
        positions := [some 0, none, some 2, some 1, none]
        sides := [.lower, .lower, .lower, .lower, .lower] } := by
    decide +kernel
  rw [htable, Option.some_inj] at hexchange
  subst hexchange
  obtain ⟨taken, htaken, hreached⟩ := ((sound_of_reached ℚ).1 _ hreached).2
    (.applyPositions [0, 4, 3] .sample) ⟨rfl, rfl, by decide, by decide, by decide⟩
  have hpositions := congrArg (Option.map fun table => (table.nonbasic, table.positions)) htaken
  have hcomputed : ((Change.applyPositions [0, 4, 3] Model.sample).after?
        { nrRows := 2
          owners := [0, 3, 2]
          positions := [some 0, none, some 2, some 1, none]
          sides := [.lower, .lower, .lower, .lower, .lower] }).map
      (fun table => (table.nonbasic, table.positions))
        = some ([1, 2], [some 0, none, none, some 2, some 1]) := by
    decide +kernel
  rw [hcomputed, Option.map_some, Option.some_inj, Prod.mk.injEq] at hpositions
  exact ⟨_, taken, htable, htaken, ((sound_of_reached ℚ).1 _ hreached).1, hpositions.1.symm,
    hpositions.2.symm⟩

end BasisTable

/-- The tables of every basis are reached. -/
theorem Basis.reached (F : Type) [Scalar F] (basis : Basis) :
  BasisTable.Reached F basis.toBasisTable
  := .ofParts basis.consistent.ofParts_eq_self

end RevisedSimplex
