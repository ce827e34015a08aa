import RevisedSimplex.Proofs.InverseForm

/-!
# Factorizations and updates

`Updated` describes the product forms that arise from a factorization by any number of updates,
together with the variable at each position and a flag that says whether its column was negated.
Each of these forms solves the columns at its positions to unit vectors.

When nothing was negated, a factorization of the same variables from scratch solves every vector
to the same entries, in the order of its own positions.
-/

open Matrix

namespace RevisedSimplex

namespace ProductForm

variable {F : Type} [ExactScalar F] {context : Context F} {model : Model F} {indices : List ℕ}
  {start form : ProductForm F} {entries : List (ℕ × Bool)}

/-- A form reached from a factorization by updates, with its variables and flags. -/
inductive Updated (context : Context F) (model : Model F) (indices : List ℕ)
    (start : ProductForm F) : ProductForm F → List (ℕ × Bool) → Prop
  /-- The factorization of a list of variables, with no column negated. -/
  | factorized {outcome : Outcome (ProductForm F) Factorization}
      (h : start.factorize? context model indices = some outcome) :
      Updated context model indices start outcome.state
        (outcome.result.positions.map fun v => (v, false))
  /-- An update with the solved column of a variable, staged with a nonzero pivot and committed. -/
  | updated {form : ProductForm F} {entries : List (ℕ × Bool)} {v row : ℕ} {flip : Bool}
      {dense column : DenseVector F} {pivot : F}
      {prepared : Outcome (ProductForm F) (Except Error F)}
      {finished : Outcome (ProductForm F) Bool}
      (h : Updated context model indices start form entries)
      (hdense : model.denseColumn? v = some dense)
      (hcolumn : form.ftran? context dense = some column)
      (hprepared : form.prepareUpdate? context row v column = some prepared)
      (hok : prepared.result = .ok pivot) (hpivot : pivot ≠ 0)
      (hfinished : prepared.state.finishUpdate? flip = some finished) :
      Updated context model indices start finished.state (entries.set row (v, flip))

/-- The dense column of a variable, negated if the flag is set. -/
def signedColumn? (model : Model F) (entry : ℕ × Bool) : Option (DenseVector F) :=
  (model.denseColumn? entry.1).map fun column =>
    if entry.2 then column.map fun x => -x else column

/-- The column of a variable, negated if the flag is set. -/
def signedVector (model : Model F) (entry : ℕ × Bool) : Fin (model.nrRows + 1) → F :=
  if entry.2 then -model.vector entry.1 else model.vector entry.1

/-- The columns of some variables with flags. -/
def signedColumns (model : Model F) (entries : List (ℕ × Bool)) :
    Fin (model.nrRows + 1) → Fin (model.nrRows + 1) → F :=
  fun i => signedVector model (entries[i.val]?.getD (0, false))

theorem signedColumn?_eq {entry : ℕ × Bool} (h : entry.1 < model.nrVariables) :
  ∃ column, signedColumn? model entry = some column ∧ column.length = model.nrRows + 1
    ∧ column.entries (model.nrRows + 1) = signedVector model entry
  := by
  obtain ⟨dense, hdense, hlength, hentries⟩ := model.denseColumn?_eq h
  unfold signedColumn? signedVector
  rw [hdense, Option.map_some]
  refine ⟨_, rfl, ?_, ?_⟩
  · split
    · rw [List.length_map, hlength]
    · apply hlength
  · split
    · rw [← hentries]
      funext i
      have hi := DenseVector.getElem?_eq_entries hlength i
      unfold DenseVector.entries at hi ⊢
      rw [List.getElem?_map, hi]
      rfl
    · apply hentries

/-! ### The invariant -/

/-- The form inverts the columns of the listed variables, the first one being the dummy. -/
structure InvertsEntries (model : Model F) (form : ProductForm F) (entries : List (ℕ × Bool)) :
    Prop where
  inverse : form.IsInverse (signedColumns model entries)
  length : entries.length = model.nrRows + 1
  dummy : entries[0]? = some (0, false)
  lt : ∀ entry ∈ entries, entry.1 < model.nrVariables

theorem InvertsEntries.of_factorize? (hexact : context.Exact)
    (hsize : start.nrRows = model.nrRows) (hnodup : indices.Nodup)
    (hindices : ∀ v ∈ indices, 0 < v ∧ v < model.nrVariables)
    {outcome : Outcome (ProductForm F) Factorization}
    (h : start.factorize? context model indices = some outcome) :
  InvertsEntries model outcome.state (outcome.result.positions.map fun v => (v, false))
  := by
  obtain ⟨other, hother, hlength, hdummy, hlt, hinverse, -, -⟩ :=
    factorize?_eq hexact hsize hnodup hindices
  rw [h, Option.some_inj] at hother
  subst hother
  constructor
  case inverse =>
    have hcolumns : signedColumns model (outcome.result.positions.map fun v => (v, false))
        = basisColumns model outcome.result.positions := by
      funext i
      unfold signedColumns basisColumns
      rw [List.getElem?_map]
      cases outcome.result.positions[i.val]? <;> rfl
    rw [hcolumns]
    apply hinverse
  case length => rw [List.length_map, hlength]
  case dummy =>
    rw [List.getElem?_map, hdummy]
    rfl
  case lt =>
    intro entry hentry
    obtain ⟨v, hv, rfl⟩ := List.mem_map.mp hentry
    apply hlt v hv

/-- An update puts the entering variable with its flag in the pivot row. -/
theorem InvertsEntries.update (h : InvertsEntries model form entries)
    (hdrop : context.tolerances.drop = 0) {v row : ℕ} {flip : Bool}
    {dense column : DenseVector F} {pivot : F}
    {prepared : Outcome (ProductForm F) (Except Error F)} {finished : Outcome (ProductForm F) Bool}
    (hdense : model.denseColumn? v = some dense)
    (hcolumn : form.ftran? context dense = some column)
    (hprepared : form.prepareUpdate? context row v column = some prepared)
    (hok : prepared.result = .ok pivot)
    (hfinished : prepared.state.finishUpdate? flip = some finished) :
  InvertsEntries model finished.state (entries.set row (v, flip))
  := by
  have hv := Model.lt_of_denseColumn? hdense
  obtain ⟨other, hother, hlength, hentries⟩ := model.denseColumn?_eq hv
  rw [hdense, Option.some_inj] at hother
  subst hother
  obtain ⟨solved, hsolved, hsolvedLength, hsolvedEntries⟩ :=
    ftran?_eq hdrop h.inverse.size h.inverse.fits hlength
  rw [hcolumn, Option.some_inj] at hsolved
  subst hsolved
  obtain ⟨i, hi, hne, -, -, hcommitted⟩ := h.inverse.update (x := model.vector v)
    (by rw [hsolvedEntries, hentries]) hprepared hok flip
  obtain ⟨-, -, hinverse⟩ := hcommitted finished hfinished
  subst hi
  constructor
  case inverse =>
    have hcolumns : signedColumns model (entries.set i.val (v, flip))
        = Function.update (signedColumns model entries) i
          (if flip then -model.vector v else model.vector v) := by
      funext j
      unfold signedColumns
      by_cases hj : j = i
      · subst hj
        rw [Function.update_self, List.getElem?_set_self (by rw [h.length]; apply j.isLt)]
        rfl
      · rw [Function.update_of_ne hj, List.getElem?_set_ne fun e => hj (Fin.ext e.symm)]
    rw [hcolumns]
    apply hinverse
  case length => rw [List.length_set, h.length]
  case dummy => rw [List.getElem?_set_ne hne, h.dummy]
  case lt =>
    intro entry hentry
    rcases List.mem_or_eq_of_mem_set hentry with hold | rfl
    · apply h.lt entry hold
    · apply hv

/-- Every form that is reached inverts its entries, by induction on the updates. -/
theorem Updated.invertsEntries (h : Updated context model indices start form entries)
    (hexact : context.Exact) (hsize : start.nrRows = model.nrRows) (hnodup : indices.Nodup)
    (hindices : ∀ v ∈ indices, 0 < v ∧ v < model.nrVariables) :
  InvertsEntries model form entries
  := by
  induction h with
  | factorized h => apply InvertsEntries.of_factorize? hexact hsize hnodup hindices h
  | updated _ hdense hcolumn hprepared hok _ hfinished ih =>
      apply ih.update hexact.drop hdense hcolumn hprepared hok hfinished

/-! ### Solving columns -/

/-- The column at each position is solved to the unit vector of the position. -/
theorem InvertsEntries.ftran?_signedColumn (h : InvertsEntries model form entries)
    (hdrop : context.tolerances.drop = 0) {i : ℕ} (hi : i ≤ model.nrRows) :
  ∃ entry column unit, entries[i]? = some entry ∧ signedColumn? model entry = some column
    ∧ DenseVector.unit? i (model.nrRows + 1) = some unit
    ∧ form.ftran? context column = some unit
  := by
  have hlt : i < entries.length := by
    rw [h.length]
    omega
  have hentry := List.getElem?_eq_getElem hlt
  obtain ⟨column, hcolumn, hlength, hentries⟩ :=
    signedColumn?_eq (h.lt _ (List.getElem_mem hlt))
  obtain ⟨unit, hunit, hsolved⟩ := h.inverse.ftran?_column hdrop
    (i := ⟨i, Nat.lt_succ_of_le hi⟩) hlength (by
      rw [hentries]
      unfold signedColumns
      rw [hentry]
      rfl)
  exact ⟨_, column, unit, hentry, hcolumn, hunit, hsolved⟩

/-- A column can be staged in any row but row `0`, and committed if its pivot was accepted. -/
theorem InvertsEntries.exists_update (h : InvertsEntries model form entries)
    (hdrop : context.tolerances.drop = 0) {v row : ℕ} (hv : v < model.nrVariables)
    (hrow : row ≠ 0) (hle : row ≤ model.nrRows) (flip : Bool) :
  ∃ dense column prepared, model.denseColumn? v = some dense
    ∧ form.ftran? context dense = some column
    ∧ form.prepareUpdate? context row v column = some prepared
    ∧ ∀ pivot, prepared.result = .ok pivot → pivot ≠ 0 →
      ∃ finished, prepared.state.finishUpdate? flip = some finished
  := by
  obtain ⟨dense, hdense, hlength, hentries⟩ := model.denseColumn?_eq hv
  obtain ⟨column, hcolumn, hcolumnLength, hsolved⟩ :=
    ftran?_eq hdrop h.inverse.size h.inverse.fits hlength
  have hsize : form.nrRows = model.nrRows := Nat.succ_injective h.inverse.size
  obtain ⟨prepared, hprepared⟩ : ∃ prepared,
      form.prepareUpdate? context row v column = some prepared := by
    unfold prepareUpdate?
    rw [hsize, if_neg (by omega)]
    obtain ⟨staged, hstaged, -⟩ :=
      EtaColumn.ofDense?_eq hcolumnLength ⟨row, Nat.lt_succ_of_le hle⟩ v
    change ∃ prepared, (EtaColumn.ofDense? column row v).bind _ = some prepared
    rw [show EtaColumn.ofDense? column row v = some staged from hstaged, Option.bind_some]
    dsimp only
    split
    · exact ⟨_, rfl⟩
    · exact ⟨_, rfl⟩
  refine ⟨dense, column, prepared, hdense, hcolumn, hprepared, ?_⟩
  intro pivot hok
  obtain ⟨-, -, -, -, hexists, -⟩ := h.inverse.update hsolved.symm hprepared hok flip
  apply hexists

/-! ### Factorizing again -/

/-- Without negated columns the variables are distinct, and the dummy is the first of them. -/
theorem InvertsEntries.tail_spec (h : InvertsEntries model form entries)
    (hflags : ∀ entry ∈ entries, entry.2 = false) :
  (entries.map Prod.fst).Nodup ∧ (entries.map Prod.fst).tail.Nodup
    ∧ ∀ v ∈ (entries.map Prod.fst).tail, 0 < v ∧ v < model.nrVariables
  := by
  have hnodup : (entries.map Prod.fst).Nodup := by
    rw [List.nodup_iff_injective_getElem]
    rintro ⟨i, hi⟩ ⟨j, hj⟩ hij
    rw [List.length_map] at hi hj
    dsimp only at hij
    rw [List.getElem_map, List.getElem_map] at hij
    have hcolumns : signedColumns model entries ⟨i, by rw [← h.length]; apply hi⟩
        = signedColumns model entries ⟨j, by rw [← h.length]; apply hj⟩ := by
      unfold signedColumns signedVector
      dsimp only
      rw [List.getElem?_eq_getElem hi, List.getElem?_eq_getElem hj, Option.getD_some,
        Option.getD_some, hflags _ (List.getElem_mem hi), hflags _ (List.getElem_mem hj), hij]
    have heq := congrArg Fin.val (h.inverse.injective hcolumns)
    apply Fin.ext
    apply heq
  have hcons : entries.map Prod.fst = 0 :: (entries.map Prod.fst).tail := by
    cases hentries : entries with
    | nil =>
        have hdummy := h.dummy
        rw [hentries] at hdummy
        cases hdummy
    | cons head rest =>
        have hdummy := h.dummy
        rw [hentries, List.getElem?_cons_zero, Option.some_inj] at hdummy
        rw [hdummy]
        rfl
  have htail := hnodup
  rw [hcons, List.nodup_cons] at htail
  refine ⟨hnodup, htail.2, ?_⟩
  intro v hv
  constructor
  · apply Nat.pos_of_ne_zero
    rintro rfl
    apply htail.1 hv
  · obtain ⟨entry, hentry, rfl⟩ := List.mem_map.mp (List.mem_of_mem_tail hv)
    apply h.lt entry hentry

/-- Two forms whose positions hold the same variables solve every vector to the same entries, each
in the order of its positions. -/
theorem InvertsEntries.ftran?_perm {fresh : ProductForm F} {positions : List ℕ}
    (h : InvertsEntries model form entries) (hdrop : context.tolerances.drop = 0)
    (hflags : ∀ entry ∈ entries, entry.2 = false)
    (hfresh : fresh.IsInverse (basisColumns model positions))
    (hlength : positions.length = model.nrRows + 1)
    (hperm : positions.Perm (entries.map Prod.fst)) {vector : DenseVector F}
    (hvector : vector.length = model.nrRows + 1) :
  ∃ solved again, form.ftran? context vector = some solved
    ∧ fresh.ftran? context vector = some again
    ∧ ∀ i j v : ℕ, entries[i]? = some (v, false) → positions[j]? = some v →
      solved[i]? = again[j]?
  := by
  obtain ⟨solved, hsolved, hsolvedLength, hsolvedEntries⟩ :=
    ftran?_eq hdrop h.inverse.size h.inverse.fits hvector
  obtain ⟨again, hagain, hagainLength, hagainEntries⟩ :=
    ftran?_eq hdrop hfresh.size hfresh.fits hvector
  refine ⟨solved, again, hsolved, hagain, ?_⟩
  have hcolumn (i : Fin (model.nrRows + 1)) (v : ℕ) (hv : entries[i.val]? = some (v, false)) :
      signedColumns model entries i = model.vector v := by
    unfold signedColumns
    rw [hv]
    rfl
  have hbasis (j : Fin (model.nrRows + 1)) (v : ℕ) (hv : positions[j.val]? = some v) :
      basisColumns model positions j = model.vector v := by
    unfold basisColumns
    rw [hv]
    rfl
  have hexists (i : Fin (model.nrRows + 1)) :
      ∃ j, signedColumns model entries i = basisColumns model positions j := by
    have hi : i.val < entries.length := by
      rw [h.length]
      apply i.isLt
    have hentry : entries[i.val]? = some (entries[i.val].1, false) := by
      rw [List.getElem?_eq_getElem hi, ← hflags _ (List.getElem_mem hi)]
    have hmem : entries[i.val].1 ∈ positions := by
      rw [hperm.mem_iff]
      apply List.mem_map_of_mem (List.getElem_mem hi)
    obtain ⟨j, hj⟩ := List.mem_iff_getElem?.mp hmem
    have hlt : j < model.nrRows + 1 := by
      rw [← hlength]
      apply (List.getElem?_eq_some_iff.mp hj).1
    use ⟨j, hlt⟩
    rw [hcolumn i _ hentry, hbasis ⟨j, hlt⟩ _ hj]
  choose σ hσ using hexists
  intro i j v hi hj
  have hilt : i < model.nrRows + 1 := by
    rw [← h.length]
    apply (List.getElem?_eq_some_iff.mp hi).1
  have hjlt : j < model.nrRows + 1 := by
    rw [← hlength]
    apply (List.getElem?_eq_some_iff.mp hj).1
  have hσi : σ ⟨i, hilt⟩ = ⟨j, hjlt⟩ := by
    apply hfresh.injective
    rw [← hσ, hcolumn ⟨i, hilt⟩ v hi, hbasis ⟨j, hjlt⟩ v hj]
  have hsame := h.inverse.solved_eq hfresh σ hσ
    (vector.entries (model.nrRows + 1)) ⟨i, hilt⟩
  rw [hσi, ← hsolvedEntries, ← hagainEntries] at hsame
  have hleft := DenseVector.getElem?_eq_entries hsolvedLength ⟨i, hilt⟩
  have hright := DenseVector.getElem?_eq_entries hagainLength ⟨j, hjlt⟩
  rw [hsame] at hleft
  apply hleft.trans hright.symm

/-- Factorizing distinct variables succeeds.  Whatever updates follow, the column at each position
is solved to the unit vector of the position.  If none of the updates negated a column, the
variables can be factorized again, and if this leaves none of them out, every vector is solved to
the same entries up to the order of the positions. -/
theorem ftran?_of_updated (hexact : context.Exact) (hsize : start.nrRows = model.nrRows)
    (hnodup : indices.Nodup) (hindices : ∀ v ∈ indices, 0 < v ∧ v < model.nrVariables) :
  (∃ outcome, start.factorize? context model indices = some outcome)
    ∧ ∀ form entries, Updated context model indices start form entries →
      (∀ i ≤ model.nrRows, ∃ entry column unit, entries[i]? = some entry
          ∧ signedColumn? model entry = some column
          ∧ DenseVector.unit? i (model.nrRows + 1) = some unit
          ∧ form.ftran? context column = some unit)
        ∧ ((∀ entry ∈ entries, entry.2 = false) →
          ∀ fresh : ProductForm F, fresh.nrRows = model.nrRows →
            ∃ outcome, fresh.factorize? context model (entries.map Prod.fst).tail = some outcome
              ∧ (outcome.result.singular = [] →
                outcome.result.positions.Perm (entries.map Prod.fst)
                  ∧ outcome.result.positions.Nodup
                  ∧ ∀ vector : DenseVector F, vector.length = model.nrRows + 1 →
                    ∃ solved again, form.ftran? context vector = some solved
                      ∧ outcome.state.ftran? context vector = some again
                      ∧ ∀ i j v : ℕ, entries[i]? = some (v, false) →
                        outcome.result.positions[j]? = some v → solved[i]? = again[j]?))
  := by
  constructor
  · obtain ⟨outcome, houtcome, -⟩ := factorize?_eq hexact hsize hnodup hindices
    use outcome
  intro form entries hupdated
  have h := hupdated.invertsEntries hexact hsize hnodup hindices
  constructor
  · intro i hi
    apply h.ftran?_signedColumn hexact.drop hi
  intro hflags fresh hfresh
  obtain ⟨hvariables, htail, hlt⟩ := h.tail_spec hflags
  obtain ⟨outcome, houtcome, hlength, hdummy, -, hinverse, -, hkept⟩ :=
    factorize?_eq hexact hfresh htail hlt
  refine ⟨outcome, houtcome, ?_⟩
  intro hsingular
  have hsubset : entries.map Prod.fst ⊆ outcome.result.positions := by
    intro v hv
    have hhead : (entries.map Prod.fst).head? = some 0 := by
      rw [List.head?_eq_getElem?, List.getElem?_map, h.dummy]
      rfl
    obtain ⟨rest, hrest⟩ := List.head?_eq_some_iff.mp hhead
    rw [hrest] at hv
    rcases List.mem_cons.mp hv with rfl | hv
    · apply List.mem_of_getElem? hdummy
    · rw [hrest, List.tail_cons] at hkept
      rcases hkept v hv with hin | hout
      · apply hin
      · rw [hsingular] at hout
        cases hout
  have hperm : outcome.result.positions.Perm (entries.map Prod.fst) := by
    symm
    apply (List.subperm_of_subset hvariables hsubset).perm_of_length_le
    rw [hlength, List.length_map, h.length]
  refine ⟨hperm, hperm.nodup_iff.mpr hvariables, ?_⟩
  intro vector hvector
  apply h.ftran?_perm hexact.drop hflags hinverse hlength hperm hvector

/-- The second structural variable enters a basis of a slack and a structural variable, with its
column negated. -/
theorem ftran?_of_updated_sample :
  Context.sample.Exact ∧ (identity 2 : ProductForm ℚ).nrRows = Model.sample.nrRows
    ∧ ∃ form entries, Updated Context.sample Model.sample [1, 3] (identity 2) form entries
      ∧ entries[1]? = some (4, true)
      ∧ ∀ i ≤ 2, ∃ entry column unit, entries[i]? = some entry
        ∧ signedColumn? Model.sample entry = some column
        ∧ DenseVector.unit? i 3 = some unit
        ∧ form.ftran? Context.sample column = some unit
  := by
  have hsize : (identity 2 : ProductForm ℚ).nrRows = Model.sample.nrRows := rfl
  have hindices : ∀ v ∈ [1, 3], 0 < v ∧ v < Model.sample.nrVariables := by decide
  obtain ⟨⟨outcome, houtcome⟩, hall⟩ :=
    ftran?_of_updated Context.sample_exact hsize (by decide) hindices
  have hfactorized : Updated Context.sample Model.sample [1, 3] (identity 2) outcome.state _ :=
    .factorized houtcome
  have hinverts := hfactorized.invertsEntries Context.sample_exact hsize (by decide) hindices
  obtain ⟨dense, column, prepared, hdense, hcolumn, hprepared, hfinish⟩ :=
    hinverts.exists_update Context.sample_exact.drop (show 4 < Model.sample.nrVariables by decide)
      (show 1 ≠ 0 by decide) (show 1 ≤ Model.sample.nrRows by decide) true
  have haccepted : (((identity 2).factorize? Context.sample Model.sample [1, 3]).bind fun outcome =>
      (Model.sample.denseColumn? 4).bind fun dense =>
        (outcome.state.ftran? Context.sample dense).bind fun column =>
          (outcome.state.prepareUpdate? Context.sample 1 4 column).bind fun prepared =>
            prepared.result.toOption).any (fun pivot => pivot ≠ 0) = true := by
    decide +kernel
  rw [houtcome, Option.bind_some, hdense, Option.bind_some, hcolumn, Option.bind_some, hprepared,
    Option.bind_some] at haccepted
  cases hok : prepared.result with
  | error e =>
      rw [hok] at haccepted
      cases haccepted
  | ok pivot =>
      rw [hok] at haccepted
      have hpivot : pivot ≠ 0 := of_decide_eq_true haccepted
      obtain ⟨finished, hfinished⟩ := hfinish pivot hok hpivot
      have hupdated := hfactorized.updated hdense hcolumn hprepared hok hpivot hfinished
      refine ⟨Context.sample_exact, hsize, finished.state, _, hupdated, ?_, ?_⟩
      · apply List.getElem?_set_self
        rw [hinverts.length]
        decide
      · apply (hall _ _ hupdated).1

end ProductForm

end RevisedSimplex
