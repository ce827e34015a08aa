import RevisedSimplex.Basis
import Mathlib.Algebra.BigOperators.Fin

/-!
# Positions of a basis

The variables of a basis are listed by position, the objective dummy first.  `positionOf?` and
`variableAt?` are inverse to each other, every variable is basic or nonbasic, and a sum over all
variables splits into one over the positions and one over the nonbasic variables.  Each of the
operations that change a basis is described by what it does to the list and to the sides.
-/

namespace RevisedSimplex

namespace BasisTable

variable {table : BasisTable} {v i : ℕ}

/-! ### Positions of a table -/

theorem Agrees.positionOf?_eq_some_iff (h : table.Agrees) :
  table.positionOf? v = some i ↔ table.variableAt? i = some v
  := by
  unfold positionOf? variableAt?
  rw [Option.join_eq_some_iff, h.inverse]

theorem Agrees.isBasic_iff (h : table.Agrees) :
  table.isBasic v = true ↔ v ∈ table.owners
  := by
  unfold isBasic
  rw [Option.isSome_iff_exists, List.mem_iff_getElem?]
  apply exists_congr
  intro i
  apply h.positionOf?_eq_some_iff

theorem Agrees.nodup_owners (h : table.Agrees) :
  table.owners.Nodup
  := by
  apply List.nodup_iff_getElem?_ne_getElem?.mpr
  intro i j hlt hj heq
  rw [List.getElem?_eq_getElem hj] at heq
  apply hlt.ne (h.position_unique heq (List.getElem?_eq_getElem hj))

theorem Agrees.lt_of_mem_owners (h : table.Agrees) (hv : v ∈ table.owners) :
  v < table.nrVariables
  := by
  obtain ⟨i, hi⟩ := List.mem_iff_getElem?.mp hv
  apply (List.getElem?_eq_some_iff.mp ((h.inverse i v).mp hi)).1

theorem Agrees.owners_eq (h : table.Agrees) :
  table.owners = 0 :: table.basic
  := by
  have hfirst := h.first
  unfold basic
  cases howners : table.owners with
  | nil =>
      rw [howners] at hfirst
      cases hfirst
  | cons first rest =>
      rw [howners, List.getElem?_cons_zero, Option.some_inj] at hfirst
      rw [hfirst, List.tail_cons]

theorem Agrees.nodup_basic (h : table.Agrees) :
  table.basic.Nodup
  := h.nodup_owners.sublist (List.tail_sublist _)

/-- A basic variable other than the dummy is listed in a row. -/
theorem Agrees.mem_basic_iff (h : table.Agrees) :
  v ∈ table.basic ↔ v ≠ 0 ∧ v ∈ table.owners
  := by
  have hnodup := h.nodup_owners
  rw [h.owners_eq] at hnodup ⊢
  rw [List.mem_cons]
  constructor
  · intro hv
    refine ⟨?_, Or.inr hv⟩
    rintro rfl
    apply (List.nodup_cons.mp hnodup).1 hv
  · rintro ⟨hne, hv⟩
    apply hv.resolve_left hne

theorem isNonbasic_iff_isBasic :
  table.isNonbasic v = true ↔ v < table.nrVariables ∧ ¬ table.isBasic v = true
  := by
  unfold isNonbasic
  rw [Bool.and_eq_true, decide_eq_true_eq, Bool.not_eq_true', Bool.not_eq_true]

theorem mem_nonbasic_iff :
  v ∈ table.nonbasic ↔ table.isNonbasic v = true
  := by
  unfold nonbasic
  rw [List.mem_filter, List.mem_range, isNonbasic_iff_isBasic, Bool.not_eq_true',
    Bool.not_eq_true]

/-- The nonbasic variables are listed in increasing order. -/
theorem pairwise_nonbasic (table : BasisTable) :
  table.nonbasic.Pairwise (· < ·)
  := List.pairwise_lt_range.filter _

/-! ### Counts -/

/-- As many variables have a position as there are positions. -/
theorem Agrees.countP_positions (h : table.Agrees) :
  table.positions.countP Option.isSome = table.owners.length
  := by
  have hpositions : table.positions = (List.range table.nrVariables).map table.positionOf? := by
    apply List.ext_getElem?
    intro v
    rw [List.getElem?_map]
    by_cases hv : v < table.nrVariables
    · rw [List.getElem?_range hv, Option.map_some]
      unfold positionOf?
      rw [List.getElem?_eq_getElem hv, Option.join_some]
    · rw [List.getElem?_eq_none (not_lt.mp hv), List.getElem?_eq_none]
      · rfl
      · rw [List.length_range]
        apply not_lt.mp hv
  have hperm : ((List.range table.nrVariables).filter table.isBasic).Perm table.owners := by
    apply (List.perm_ext_iff_of_nodup (List.nodup_range.filter _) h.nodup_owners).mpr
    intro v
    rw [List.mem_filter, List.mem_range, h.isBasic_iff]
    constructor
    · rintro ⟨-, hv⟩
      apply hv
    · intro hv
      use h.lt_of_mem_owners hv
  rw [hpositions, List.countP_map, List.countP_eq_length_filter]
  apply hperm.length_eq

/-- The basic variables are counted right. -/
theorem Consistent.nrBasic_eq (h : table.Consistent) :
  table.nrBasic = table.nrRows
  := by
  have hcount := h.countP_positions
  have hfirst := (h.inverse 0 0).mp h.first
  unfold nrBasic
  cases hpositions : table.positions with
  | nil =>
      rw [hpositions] at hfirst
      cases hfirst
  | cons first rest =>
      rw [hpositions, List.getElem?_cons_zero, Option.some_inj] at hfirst
      rw [hpositions, hfirst, List.countP_cons_of_pos rfl, h.length_owners] at hcount
      rw [List.tail_cons]
      apply Nat.succ_injective hcount

/-- Tables that agree pass the check. -/
theorem Consistent.isConsistent (h : table.Consistent) :
  table.isConsistent = true
  := by
  unfold BasisTable.isConsistent
  rw [h.countP_positions, h.length_owners, List.head?_eq_getElem?, h.first, beq_self_eq_true,
    beq_self_eq_true, Bool.and_true, Bool.true_and, Bool.true_and, List.all_eq_true]
  intro i hi
  rw [List.mem_range, ← h.length_owners] at hi
  have hvariable : table.variableAt? i = some table.owners[i] := List.getElem?_eq_getElem hi
  rw [hvariable, Option.bind_some, h.positionOf?_eq_some_iff.mpr hvariable, beq_self_eq_true]

theorem Consistent.checked? (h : table.Consistent) :
  table.checked? = some table
  := by
  unfold BasisTable.checked?
  rw [if_pos h.isConsistent]

/-! ### Changes of a table -/

section Changes

variable {row entering : ℕ}

/-- A side can be stored for every variable. -/
theorem exists_setSide? (hv : v < table.nrVariables) (side : Side) :
  ∃ after, table.setSide? v side = some after
  := by
  unfold setSide?
  rw [if_pos hv]
  exact ⟨_, rfl⟩

/-- Every nonbasic variable can be flipped. -/
theorem Consistent.exists_flip? (h : table.Consistent) (hv : table.isNonbasic v = true) :
  ∃ after, table.flip? v = some after
  := by
  have hlt := (isNonbasic_iff_isBasic.mp hv).1
  have hsides : v < table.sides.length := by
    rw [h.length_sides]
    apply hlt
  have hside : table.side? v = some table.sides[v] := List.getElem?_eq_getElem hsides
  unfold BasisTable.flip?
  rw [hside, Option.bind_eq_bind, Option.bind_some, if_pos hv]
  apply exists_setSide? hlt

/-- Every row can be exchanged for a nonbasic variable. -/
theorem Consistent.exists_exchange? (h : table.Consistent) (hrow : row ≠ 0)
    (hle : row ≤ table.nrRows) (hentering : table.isNonbasic entering = true) :
  ∃ leaving after, table.exchange? row entering = some (leaving, after)
  := by
  have hlt : row < table.owners.length := by
    rw [h.length_owners]
    omega
  have hleaving : table.variableAt? row = some table.owners[row] := List.getElem?_eq_getElem hlt
  have hvalid : ¬ (row = 0 ∨ table.isNonbasic entering = false) := by
    rw [hentering]
    simpa using hrow
  have hchecked := Consistent.checked?
    ⟨h.toAgrees.exchange hrow hleaving hentering, by simpa using h.length_owners⟩
  unfold BasisTable.exchange?
  rw [hleaving, Option.bind_eq_bind, Option.bind_some, if_neg hvalid, hchecked]
  exact ⟨_, _, rfl⟩

section Positions

variable {F : Type} [Scalar F] {model : Model F} {positions : List (Option ℕ)} {sides : List Side}

/-- The sides of variables that have positions stay. -/
theorem resetSides?_of_assigned {vs : List ℕ} {reset : List Side}
    (hassigned : ∀ v ∈ vs, positions[v]? ≠ some none)
    (h : vs.foldlM (resetSide? positions model) sides = some reset) :
  reset = sides
  := by
  induction vs generalizing sides with
  | nil =>
      cases h
      rfl
  | cons v vs ih =>
      obtain ⟨hv, hassigned⟩ := List.forall_mem_cons.mp hassigned
      rw [List.foldlM_cons, resetSide?, if_neg hv] at h
      apply ih hassigned h

/-- The sides of variables with bounds can be reset. -/
theorem exists_resetSides? {vs : List ℕ}
    (hbounds : ∀ v ∈ vs, (model.bounds? v).isSome = true) :
  ∃ reset, vs.foldlM (resetSide? positions model) sides = some reset
  := by
  induction vs generalizing sides with
  | nil => exact ⟨_, rfl⟩
  | cons v vs ih =>
      obtain ⟨hv, hbounds⟩ := List.forall_mem_cons.mp hbounds
      obtain ⟨bounds, hv⟩ := Option.isSome_iff_exists.mp hv
      rw [List.foldlM_cons]
      unfold resetSide?
      rw [hv]
      split
      · apply ih hbounds
      · apply ih hbounds

/-- Distinct positions that begin with the objective dummy are taken over. -/
theorem Consistent.exists_applyPositions? {owners : List ℕ} (h : table.Consistent)
    (hfirst : owners[0]? = some 0) (hlength : owners.length = table.nrRows + 1)
    (hnodup : owners.Nodup) (hrange : ∀ v ∈ owners, v < table.nrVariables)
    (hbounds : ∀ v < table.nrVariables, (model.bounds? v).isSome = true) :
  ∃ after, table.applyPositions? owners model = some after
  := by
  have hvalid : ¬ (owners.length ≠ table.nrRows + 1 ∨ owners.head? ≠ some 0
      ∨ ¬ ∀ v ∈ owners, v < table.nrVariables) := by
    rw [not_or, not_or, not_not, not_not, not_not, List.head?_eq_getElem?]
    exact ⟨hlength, hfirst, hrange⟩
  obtain ⟨sides, hsides⟩ : ∃ sides, table.owners.foldlM (resetSide?
      (BasisTable.assign (clear table.positions table.owners) 0 owners) model) table.sides
        = some sides := by
    apply exists_resetSides?
    intro v hv
    apply hbounds v (h.lt_of_mem_owners hv)
  have hchecked := Consistent.checked?
    ⟨h.toAgrees.assign hfirst hnodup hrange (length_resetSides? hsides), hlength⟩
  unfold BasisTable.applyPositions?
  rw [if_neg hvalid]
  dsimp only
  rw [hsides, Option.bind_eq_bind, Option.bind_some]
  exact ⟨_, hchecked⟩

end Positions

end Changes

end BasisTable

namespace Basis

variable {basis after : Basis} {v w i row entering leaving : ℕ}

/-! ### Positions of a basis -/

theorem nodup_owners (basis : Basis) :
  basis.owners.Nodup
  := basis.consistent.nodup_owners

theorem owners_eq (basis : Basis) :
  basis.owners = 0 :: basis.basic
  := basis.consistent.owners_eq

theorem nodup_basic (basis : Basis) :
  basis.basic.Nodup
  := basis.consistent.nodup_basic

theorem basic_inRange (basis : Basis) (h : v ∈ basis.basic) :
  0 < v ∧ v < basis.nrVariables
  := by
  obtain ⟨hne, hv⟩ := basis.consistent.mem_basic_iff.mp h
  exact ⟨Nat.pos_of_ne_zero hne, basis.consistent.lt_of_mem_owners hv⟩

theorem length_owners (basis : Basis) :
  basis.owners.length = basis.nrRows + 1
  := basis.consistent.length_owners

theorem length_sides (basis : Basis) :
  basis.sides.length = basis.nrVariables
  := basis.consistent.length_sides

theorem variableAt?_eq (basis : Basis) (i : ℕ) :
  basis.variableAt? i = basis.owners[i]?
  := rfl

/-- Bases with the same number of sides have the same number of variables. -/
theorem nrVariables_congr (h : after.sides.length = basis.sides.length) :
  after.nrVariables = basis.nrVariables
  := by
  rw [← length_sides, h, length_sides]

@[simp]
theorem nrRows_slack {F : Type} [Scalar F] (model : Model F) :
  (slack model).nrRows = model.nrRows
  := rfl

@[simp]
theorem nrVariables_slack {F : Type} [Scalar F] (model : Model F) :
  (slack model).nrVariables = model.nrVariables
  := by
  change ((List.range model.nrVariables).map _).length = _
  rw [List.length_map, List.length_range]

theorem lt_of_variableAt? (h : basis.variableAt? i = some v) :
  i < basis.nrRows + 1
  := by
  rw [← length_owners]
  apply (List.getElem?_eq_some_iff.mp h).1

@[simp]
theorem variableAt?_zero (basis : Basis) :
  basis.variableAt? 0 = some 0
  := basis.consistent.first

theorem positionOf?_eq_some_iff :
  basis.positionOf? v = some i ↔ basis.variableAt? i = some v
  := basis.consistent.positionOf?_eq_some_iff

theorem isBasic_iff :
  basis.isBasic v = true ↔ v ∈ basis.owners
  := basis.consistent.isBasic_iff

theorem positionOf?_eq_none_iff :
  basis.positionOf? v = none ↔ v ∉ basis.owners
  := by
  rw [← isBasic_iff]
  unfold BasisTable.isBasic
  rw [Bool.not_eq_true, Option.isSome_eq_false_iff, Option.isNone_iff_eq_none]

theorem isNonbasic_iff :
  basis.isNonbasic v = true ↔ v < basis.nrVariables ∧ v ∉ basis.owners
  := by
  rw [BasisTable.isNonbasic_iff_isBasic, isBasic_iff]

theorem mem_nonbasic :
  v ∈ basis.nonbasic ↔ basis.isNonbasic v = true
  := BasisTable.mem_nonbasic_iff

theorem nodup_nonbasic (basis : Basis) :
  basis.nonbasic.Nodup
  := List.nodup_range.filter _

theorem lt_of_mem_owners (h : v ∈ basis.owners) :
  v < basis.nrVariables
  := basis.consistent.lt_of_mem_owners h

/-- A variable has a position or is nonbasic. -/
theorem position_or_nonbasic (h : v < basis.nrVariables) :
  (∃ i, basis.variableAt? i = some v) ∨ basis.isNonbasic v = true
  := by
  by_cases hv : v ∈ basis.owners
  · apply Or.inl
    apply List.mem_iff_getElem?.mp hv
  · apply Or.inr (isNonbasic_iff.mpr ⟨h, hv⟩)

/-- The stored side of a variable. -/
theorem exists_side? (h : v < basis.nrVariables) :
  ∃ side, basis.side? v = some side
  := by
  rw [← basis.length_sides] at h
  exact ⟨_, List.getElem?_eq_getElem h⟩

/-- Every basis is consistent. -/
theorem isConsistent_eq_true (basis : Basis) :
  basis.isConsistent = true
  := basis.consistent.isConsistent

/-! ### Equal bases -/

section Same

variable {other : Basis}

/-- Bases are the same when they have the same basic variables, in any order, and the same sides
for the other ones. -/
theorem sameAs_iff :
  basis.sameAs other = true
    ↔ basis.nrVariables = other.nrVariables ∧ (∀ v, v ∈ basis.owners ↔ v ∈ other.owners)
      ∧ ∀ v, basis.isNonbasic v = true → basis.side? v = other.side? v
  := by
  unfold sameAs
  rw [Bool.and_eq_true, beq_iff_eq, List.all_eq_true]
  constructor
  · rintro ⟨hsize, hall⟩
    have hsame (v : ℕ) (hv : v < basis.nrVariables) :
        (v ∈ basis.owners ↔ v ∈ other.owners)
          ∧ (v ∉ basis.owners → basis.side? v = other.side? v) := by
      have hv := hall v (List.mem_range.mpr hv)
      rw [← isBasic_iff, ← isBasic_iff]
      cases hbasic : basis.isBasic v with
      | true => simpa [hbasic] using hv
      | false => simpa [hbasic] using hv
    refine ⟨hsize, ?_, ?_⟩
    · intro v
      constructor
      · intro hv
        apply (hsame v (lt_of_mem_owners hv)).1.mp hv
      · intro hv
        apply (hsame v (hsize ▸ lt_of_mem_owners hv)).1.mpr hv
    · intro v hv
      rw [isNonbasic_iff] at hv
      apply (hsame v hv.1).2 hv.2
  · rintro ⟨hsize, howners, hsides⟩
    refine ⟨hsize, ?_⟩
    intro v hv
    rw [List.mem_range] at hv
    have hbasic : other.isBasic v = basis.isBasic v := by
      rw [Bool.eq_iff_iff, isBasic_iff, isBasic_iff, howners]
    cases hcase : basis.isBasic v with
    | true => simp [hbasic, hcase]
    | false =>
        have hnonbasic : basis.isNonbasic v = true := by
          unfold BasisTable.isNonbasic
          simp [hv, hcase]
        simp [hbasic, hcase, hsides v hnonbasic]

/-- The same bases have the same number of rows. -/
theorem nrRows_eq_of_sameAs (h : basis.sameAs other = true) :
  basis.nrRows = other.nrRows
  := by
  obtain ⟨-, howners, -⟩ := sameAs_iff.mp h
  have hperm : basis.owners.Perm other.owners :=
    (List.perm_ext_iff_of_nodup basis.nodup_owners other.nodup_owners).mpr howners
  have hlength := hperm.length_eq
  rw [length_owners, length_owners] at hlength
  apply Nat.succ_injective hlength

end Same

/-! ### Sums -/

section Sums

variable {M : Type} [AddCommMonoid M]

/-- The sum over all variables, split into basic and nonbasic ones. -/
theorem sum_range_eq (basis : Basis) (f : ℕ → M) :
  ∑ v ∈ Finset.range basis.nrVariables, f v
    = (basis.owners.map f).sum + (basis.nonbasic.map f).sum
  := by
  rw [← List.sum_toFinset f basis.nodup_owners, ← List.sum_toFinset f basis.nodup_nonbasic,
    ← Finset.sum_union]
  · congr 1
    ext v
    rw [Finset.mem_range, Finset.mem_union, List.mem_toFinset, List.mem_toFinset, mem_nonbasic,
      isNonbasic_iff]
    constructor
    · intro hv
      by_cases hmem : v ∈ basis.owners
      · apply Or.inl hmem
      · apply Or.inr ⟨hv, hmem⟩
    · rintro (hmem | ⟨hv, -⟩)
      · apply lt_of_mem_owners hmem
      · apply hv
  · rw [Finset.disjoint_left]
    intro v hv hnonbasic
    rw [List.mem_toFinset] at hv hnonbasic
    apply (isNonbasic_iff.mp (mem_nonbasic.mp hnonbasic)).2 hv

/-- A sum over the variables by position. -/
theorem sum_owners {n : ℕ} (h : basis.nrRows + 1 = n) (f : ℕ → M) :
  (basis.owners.map f).sum = ∑ i : Fin n, f (basis.owners[i.val]?.getD 0)
  := by
  rw [← length_owners] at h
  subst h
  rw [← Fin.sum_univ_fun_getElem]
  apply Finset.sum_congr rfl
  intro i _
  rw [List.getElem?_eq_getElem i.isLt, Option.getD_some]

end Sums

/-! ### Changes -/

/-- The basis with another side for a variable. -/
theorem setSide?_eq {side : Side} (h : basis.setSide? v side = some after) :
  after.owners = basis.owners ∧ after.sides = basis.sides.set v side
    ∧ v < basis.nrVariables
  := by
  obtain ⟨table, -, hset, rfl⟩ := Option.pmap_eq_some_iff.mp h
  unfold BasisTable.setSide? at hset
  split at hset
  · rename_i hv
    cases hset
    exact ⟨rfl, rfl, hv⟩
  · cases hset

/-- The basis with a nonbasic variable at its other side. -/
theorem flip?_eq (h : basis.flip? v = some after) :
  ∃ side, basis.side? v = some side ∧ basis.isNonbasic v = true
    ∧ after.owners = basis.owners ∧ after.sides = basis.sides.set v side.other
  := by
  obtain ⟨table, -, hflip, rfl⟩ := Option.pmap_eq_some_iff.mp h
  unfold BasisTable.flip? at hflip
  obtain ⟨side, hside, hflip⟩ := Option.bind_eq_some_iff.mp hflip
  split at hflip
  · rename_i hnonbasic
    unfold BasisTable.setSide? at hflip
    split at hflip
    · cases hflip
      exact ⟨side, hside, hnonbasic, rfl, rfl⟩
    · cases hflip
  · cases hflip

/-- The basis with a nonbasic variable in the place of that of a row. -/
theorem exchange?_eq (h : basis.exchange? row entering = some (leaving, after)) :
  row ≠ 0 ∧ basis.variableAt? row = some leaving ∧ basis.isNonbasic entering = true
    ∧ after.owners = basis.owners.set row entering ∧ after.sides = basis.sides
  := by
  obtain ⟨⟨other, table⟩, _, hexchange, hafter⟩ := Option.pmap_eq_some_iff.mp h
  cases hafter
  obtain ⟨hrow, hleaving, hentering, rfl⟩ := BasisTable.exchange?_eq_some hexchange
  exact ⟨hrow, hleaving, hentering, rfl, rfl⟩

/-- The basis after an exchange, the leaving variable put to a side. -/
theorem exchange?_setSide?_eq {exchanged : Basis} {side : Side}
    (h : basis.exchange? row entering = some (leaving, exchanged))
    (hset : exchanged.setSide? leaving side = some after) :
  after.nrRows = basis.nrRows ∧ after.nrVariables = basis.nrVariables
    ∧ after.owners = basis.owners.set row entering
    ∧ (∀ j, after.variableAt? j = if j = row then some entering else basis.variableAt? j)
    ∧ after.isNonbasic leaving = true ∧ after.side? leaving = some side
    ∧ ∀ v, basis.isNonbasic v = true → v ≠ entering →
      after.isNonbasic v = true ∧ after.side? v = basis.side? v
  := by
  obtain ⟨-, hleaving, hentering, howners, hsides⟩ := exchange?_eq h
  obtain ⟨howners', hsides', hlt⟩ := setSide?_eq hset
  rw [howners] at howners'
  rw [hsides] at hsides'
  have hrow : row < basis.owners.length := (List.getElem?_eq_some_iff.mp hleaving).1
  have hleavingLt : leaving < basis.sides.length := by
    rw [← hsides, exchanged.length_sides]
    apply hlt
  have hvariables : after.nrVariables = basis.nrVariables := by
    apply nrVariables_congr
    rw [hsides', List.length_set]
  have hvariableAt (j : ℕ) : after.variableAt? j
      = if j = row then some entering else basis.variableAt? j := by
    rw [variableAt?_eq, howners']
    split
    · rename_i hj
      rw [hj, List.getElem?_set_self hrow]
    · rename_i hj
      rw [List.getElem?_set_ne fun e => hj e.symm, variableAt?_eq]
  refine ⟨?_, hvariables, howners', hvariableAt, ?_, ?_, ?_⟩
  · have hlengths := congrArg List.length howners'
    rw [List.length_set, length_owners, length_owners] at hlengths
    apply Nat.succ_injective hlengths
  · apply isNonbasic_iff.mpr
    rw [hvariables]
    rw [basis.length_sides] at hleavingLt
    use hleavingLt
    intro hmem
    obtain ⟨j, hj⟩ := List.mem_iff_getElem?.mp hmem
    rw [← variableAt?_eq, hvariableAt] at hj
    split at hj
    · rw [Option.some_inj] at hj
      rw [hj] at hentering
      apply (isNonbasic_iff.mp hentering).2 (List.mem_of_getElem? hleaving)
    · rename_i hne
      have hposition := positionOf?_eq_some_iff.mpr hj
      rw [positionOf?_eq_some_iff.mpr hleaving, Option.some_inj] at hposition
      apply hne hposition.symm
  · unfold BasisTable.side?
    rw [hsides', List.getElem?_set_self hleavingLt]
  · intro v hv hne
    obtain ⟨hvlt, hnot⟩ := isNonbasic_iff.mp hv
    constructor
    · apply isNonbasic_iff.mpr
      rw [hvariables, howners']
      use hvlt
      intro hmem
      rcases List.mem_or_eq_of_mem_set hmem with hmem | heq
      · apply hnot hmem
      · apply hne heq
    · unfold BasisTable.side?
      rw [hsides', List.getElem?_set_ne]
      rintro rfl
      apply hnot (List.mem_of_getElem? hleaving)

/-- The variables at given positions, the sides of those that keep a position unchanged. -/
theorem applyPositions?_eq {F : Type} [Scalar F] {model : Model F} {positions : List ℕ}
    (h : basis.applyPositions? positions model = some after) :
  after.owners = positions ∧ after.nrRows = basis.nrRows
    ∧ after.nrVariables = basis.nrVariables
    ∧ ((∀ v ∈ basis.basic, v ∈ positions) → after.sides = basis.sides)
  := by
  obtain ⟨table, -, happly, rfl⟩ := Option.pmap_eq_some_iff.mp h
  obtain ⟨-, hfirst, hnodup, hrange, sides, hsides, rfl⟩ :=
    BasisTable.applyPositions?_eq_some happly
  refine ⟨rfl, rfl, ?_, ?_⟩
  · unfold BasisTable.nrVariables
    rw [BasisTable.length_assign, BasisTable.length_clear]
  · intro hkept
    apply BasisTable.resetSides?_of_assigned _ hsides
    intro v hv
    have hmem : v ∈ positions := by
      rw [basis.owners_eq] at hv
      rcases List.mem_cons.mp hv with rfl | hv
      · apply List.mem_of_getElem? hfirst
      · apply hkept v hv
    obtain ⟨i, hi⟩ := List.mem_iff_getElem?.mp hmem
    rw [BasisTable.getElem?_assign hnodup hi]
    · simp
    · rw [BasisTable.length_clear]
      apply hrange v hmem

/-- A side can be stored for every variable. -/
theorem exists_setSide? (hv : v < basis.nrVariables) (side : Side) :
  ∃ after, basis.setSide? v side = some after
  := by
  obtain ⟨table, htable⟩ := BasisTable.exists_setSide? hv side
  exact ⟨_, Option.pmap_eq_some_iff.mpr ⟨_, basis.consistent.setSide? htable, htable, rfl⟩⟩

/-- Every nonbasic variable can be flipped. -/
theorem exists_flip? (hv : basis.isNonbasic v = true) :
  ∃ after, basis.flip? v = some after
  := by
  obtain ⟨table, htable⟩ := basis.consistent.exists_flip? hv
  exact ⟨_, Option.pmap_eq_some_iff.mpr ⟨_, basis.consistent.flip? htable, htable, rfl⟩⟩

/-- Every row can be exchanged for a nonbasic variable. -/
theorem exists_exchange? (hrow : row ≠ 0) (hle : row ≤ basis.nrRows)
    (hentering : basis.isNonbasic entering = true) :
  ∃ leaving after, basis.exchange? row entering = some (leaving, after)
  := by
  obtain ⟨leaving, table, htable⟩ := basis.consistent.exists_exchange? hrow hle hentering
  exact ⟨_, _, Option.pmap_eq_some_iff.mpr
    ⟨_, basis.consistent.exchange? htable, htable, rfl⟩⟩

/-- Distinct positions that begin with the objective dummy are taken over. -/
theorem exists_applyPositions? {F : Type} [Scalar F] {model : Model F} {positions : List ℕ}
    (hfirst : positions[0]? = some 0) (hlength : positions.length = basis.nrRows + 1)
    (hnodup : positions.Nodup) (hrange : ∀ v ∈ positions, v < basis.nrVariables)
    (hbounds : ∀ v < basis.nrVariables, (model.bounds? v).isSome = true) :
  ∃ after, basis.applyPositions? positions model = some after
  := by
  obtain ⟨table, htable⟩ :=
    basis.consistent.exists_applyPositions? hfirst hlength hnodup hrange hbounds
  exact ⟨_, Option.pmap_eq_some_iff.mpr
    ⟨_, basis.consistent.applyPositions? htable, htable, rfl⟩⟩

end Basis

end RevisedSimplex
