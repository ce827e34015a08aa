import RevisedSimplex.Proofs.SingletonQueues

/-!
# The order of the singletons

Which variables are singletons depends on the order in which earlier ones were taken, and so does
the kind of a singleton: the only candidate of a row may also be one whose only row it is.  Still
all orders give the same variables the same rows, when at the end of one of them every free row has
a waiting variable with a nonzero in it, and every waiting variable a free row with one of its
nonzeros.  `Saturated` states this.

Let a placement be within a saturated one in which no acceptable singleton is left.  The next
singleton that is taken has its row there as well: a row that it is the only candidate of cannot
have another variable there, and cannot be free there.  So the whole singleton phase stays within
the saturated placement, in whatever order it goes.  At its end it is saturated too, and the
argument can be turned around.
-/

namespace RevisedSimplex

variable {F : Type} [Scalar F]

/-! ### Columns by variable -/

namespace Model

/-- Whether the column of a variable has a nonzero in a row. -/
def hits (model : Model F) (v row : ℕ) : Bool :=
  (model.column? v).any fun entries =>
    entries.any fun entry => entry.1 == row && !(entry.2 == 0)

/-- Whether the entry of a variable in a row has at least a given magnitude. -/
def accepts (model : Model F) (tolerance : F) (v row : ℕ) : Bool :=
  ((model.column? v).bind fun entries => entries.valueAt? row).any fun value =>
    tolerance ≤ Scalar.magnitude value

end Model

omit [Scalar F] in
/-- The variables that wait are those of the unassigned candidates. -/
theorem Elimination.mem_waiting {state : Elimination F} {v : ℕ} :
  v ∈ state.waiting ↔ ∃ k column, state.isUnassigned k = true
    ∧ state.candidates[k]? = some column ∧ column.owner = v
  := by
  unfold waiting
  rw [List.mem_filterMap]
  constructor
  · rintro ⟨k, hk, howner⟩
    obtain ⟨column, hcolumn, rfl⟩ := Option.map_eq_some_iff.mp howner
    exact ⟨k, column, (List.mem_filter.mp hk).2, hcolumn, rfl⟩
  · rintro ⟨k, column, hk, hcolumn, rfl⟩
    refine ⟨k, ?_, by rw [hcolumn]; rfl⟩
    rw [List.mem_filter, List.mem_range]
    exact ⟨(List.getElem?_eq_some_iff.mp hcolumn).1, hk⟩

omit [Scalar F] in
/-- The unassigned candidates have distinct variables. -/
theorem Elimination.eq_of_owner_eq {state : Elimination F} (h : state.waiting.Nodup) {j k : ℕ}
    {first second : CandidateColumn F} (hj : state.isUnassigned j = true)
    (hfirst : state.candidates[j]? = some first) (hk : state.isUnassigned k = true)
    (hsecond : state.candidates[k]? = some second) (howner : first.owner = second.owner) :
  j = k
  := by
  by_contra hne
  let rest : Elimination F := { state with assigned := state.assigned.set j true }
  have hwaiting : state.waiting.Perm (first.owner :: rest.waiting) :=
    perm_waiting hj hfirst rfl rfl
  have hnot := (List.nodup_cons.mp (hwaiting.nodup_iff.mp h)).1
  apply hnot
  refine mem_waiting.mpr ⟨k, second, ?_, hsecond, howner.symm⟩
  rw [show rest.isUnassigned k = _ from isUnassigned_of_set rest.assigned rfl k, hk,
    Bool.true_and, bne_iff_ne]
  apply Ne.symm hne

namespace Placement

variable {model : Model F} {indices others : List ℕ} {placement result last : Placement F}
  {k row v i : ℕ} {tolerance : F} {queues later : SingletonQueues} {column : CandidateColumn F}

theorem Placed.hits_eq (h : placement.Placed model indices)
    (hk : placement.elimination.candidates[k]? = some column) (row : ℕ) :
  placement.elimination.hits k row = model.hits column.owner row
  := by
  unfold Elimination.hits Model.hits
  rw [hk, (h.candidate k column hk).2]
  rfl

theorem Placed.isAcceptable_eq (h : placement.Placed model indices)
    (hk : placement.elimination.candidates[k]? = some column) (tolerance : F) (row : ℕ) :
  placement.elimination.isAcceptable tolerance k row = model.accepts tolerance column.owner row
  := by
  unfold Elimination.isAcceptable Model.accepts
  rw [hk, (h.candidate k column hk).2]
  rfl

/-! ### Singletons by variable -/

/-- A waiting variable with an acceptable entry in a free row, where no other one waits, or which
is its only free row. -/
structure IsSingleton (model : Model F) (tolerance : F) (placement : Placement F) (v row : ℕ) :
    Prop where
  waits : v ∈ placement.elimination.waiting
  free : placement.elimination.isFree row = true
  hits : model.hits v row = true
  accepts : model.accepts tolerance v row = true
  only : (∀ w ∈ placement.elimination.waiting, model.hits w row = true → w = v)
    ∨ ∀ i, placement.elimination.isFree i = true → model.hits v i = true → i = row

/-- Nothing is singular, structural variables have nonzeros in their rows, and waiting ones none in
the pivot rows. -/
structure Regular (model : Model F) (indices : List ℕ) (placement : Placement F) : Prop
    extends placement.Accounted model indices where
  named : ∀ column ∈ placement.elimination.candidates,
    candidate? model column.owner = some column
  singular : placement.singular = []
  hits : ∀ i v : ℕ, placement.positions[i]? = some (some v) → model.nrRows < v →
    model.hits v i = true
  untouched : ∀ v ∈ placement.elimination.waiting, ∀ eta ∈ placement.file.columns,
    model.hits v eta.pivotRow = false

/-- A singleton is given its row.  An eta column for it is made only if no other variable waits
there. -/
structure Takes (model : Model F) (tolerance : F) (placement result : Placement F) (v row : ℕ) :
    Prop where
  single : placement.IsSingleton model tolerance v row
  positions : result.positions = placement.positions.set row (some v)
  candidates : result.elimination.candidates = placement.elimination.candidates
  waiting : placement.elimination.waiting.Perm (v :: result.elimination.waiting)
  singular : result.singular = placement.singular
  columns : ∀ eta ∈ result.file.columns, eta ∈ placement.file.columns
    ∨ eta.pivotRow = row
      ∧ ∀ w ∈ placement.elimination.waiting, model.hits w row = true → w = v

/-- No two waiting variables are those of one candidate. -/
theorem Distributed.nodup_waiting (h : placement.Distributed model indices)
    (hnodup : indices.Nodup) :
  placement.elimination.waiting.Nodup
  := by
  have hall := h.structurals.nodup_iff.mpr (hnodup.filter _)
  apply (List.nodup_append.mp hall).1

/-- Taking a row takes a singleton. -/
theorem Placed.takeRow?_takes (h : placement.Placed model indices)
    (htake : takeRow? tolerance row placement queues = some (result, later)) :
  result = placement ∨ ∃ v row, placement.Takes model tolerance result v row
  := by
  rcases takeRow?_spec htake with ⟨rfl, -⟩
    | ⟨k, committed, rows, columns, hcolumnFor, hacceptable, hcommit, hplace, -⟩
  · apply Or.inl rfl
  · apply Or.inr
    obtain ⟨hfree, hk, hhits, honly⟩ := h.counted.columnFor?_spec hcolumnFor
    obtain ⟨_, eta, -, heta, hcommit⟩ := commitRaw?_spec hcommit
    obtain ⟨hetaRow, -⟩ := EtaColumn.ofSparse?_spec heta
    obtain ⟨inverse, hinverse, rfl⟩ := commit?_spec hcommit
    obtain ⟨hinverseRow, -⟩ := EtaColumn.invert?_spec hinverse
    obtain ⟨column, elimination, hcolumn, -, -, hcandidates, -, hassigned, rfl⟩ :=
      place?_spec hplace
    have honly (w : ℕ) (hw : w ∈ placement.elimination.waiting)
        (hit : model.hits w row = true) : w = column.owner := by
      obtain ⟨j, other, hj, hother, rfl⟩ := Elimination.mem_waiting.mp hw
      rw [← h.hits_eq hother] at hit
      rw [honly j hj hit] at hother
      rw [Option.some_inj.mp (hother.symm.trans hcolumn)]
    refine ⟨column.owner, row, ?_⟩
    constructor
    case single =>
      constructor
      case waits => apply Elimination.mem_waiting.mpr ⟨k, column, hk, hcolumn, rfl⟩
      case free => apply hfree
      case hits => rw [← h.hits_eq hcolumn, hhits]
      case accepts => rw [← h.isAcceptable_eq hcolumn, hacceptable]
      case only => apply Or.inl honly
    case positions => rfl
    case candidates => apply hcandidates
    case waiting => apply Elimination.perm_waiting hk hcolumn hcandidates hassigned
    case singular => rfl
    case columns =>
      intro other hother
      change other ∈ (placement.file.append inverse).columns at hother
      rw [EtaFile.columns_append] at hother
      rcases List.mem_append.mp hother with hold | hnew
      · apply Or.inl hold
      · rw [List.mem_singleton.mp hnew, hinverseRow, hetaRow]
        apply Or.inr ⟨rfl, honly⟩

/-- Taking a candidate takes a singleton. -/
theorem Placed.takeColumn?_takes (h : placement.Placed model indices)
    (htake : takeColumn? tolerance k placement queues = some (result, later)) :
  result = placement ∨ ∃ v row, placement.Takes model tolerance result v row
  := by
  rcases takeColumn?_spec htake with ⟨rfl, -⟩
    | ⟨row, placed, rows, columns, hrowFor, hacceptable, hplace, rfl, -⟩
  · apply Or.inl rfl
  · apply Or.inr
    obtain ⟨hk, hfree, hhits, honly⟩ := h.counted.rowFor?_spec hrowFor
    obtain ⟨column, elimination, hcolumn, -, -, hcandidates, -, hassigned, rfl⟩ :=
      place?_spec hplace
    refine ⟨column.owner, row, ?_⟩
    constructor
    case single =>
      constructor
      case waits => apply Elimination.mem_waiting.mpr ⟨k, column, hk, hcolumn, rfl⟩
      case free => apply hfree
      case hits => rw [← h.hits_eq hcolumn, hhits]
      case accepts => rw [← h.isAcceptable_eq hcolumn, hacceptable]
      case only =>
        apply Or.inr
        intro i hi hit
        rw [← h.hits_eq hcolumn] at hit
        apply honly i hi hit
    case positions => rfl
    case candidates => apply hcandidates
    case waiting => apply Elimination.perm_waiting hk hcolumn hcandidates hassigned
    case singular => rfl
    case columns =>
      intro eta heta
      apply Or.inl heta

theorem Regular.takes (h : placement.Regular model indices) (hnodup : indices.Nodup)
    (hresult : result.Accounted model indices)
    (htakes : placement.Takes model tolerance result v row) :
  result.Regular model indices
  := by
  constructor
  case toAccounted => apply hresult
  case named =>
    rw [htakes.candidates]
    apply h.named
  case singular => rw [htakes.singular, h.singular]
  case hits =>
    intro i w hw hlt
    rw [htakes.positions] at hw
    by_cases hi : row = i
    · subst hi
      obtain ⟨hrow, -⟩ :=
        List.getElem?_eq_some_iff.mp ((h.placed.free row).mp htakes.single.free)
      rw [List.getElem?_set_self hrow, Option.some_inj, Option.some_inj] at hw
      rw [← hw, htakes.single.hits]
    · rw [List.getElem?_set_ne hi] at hw
      apply h.hits i w hw hlt
  case untouched =>
    intro w hw eta heta
    have hwaits := htakes.waiting.mem_iff.mpr (List.mem_cons_of_mem v hw)
    rcases htakes.columns eta heta with hold | ⟨hrow, honly⟩
    · apply h.untouched w hwaits eta hold
    · rw [hrow, Bool.eq_false_iff]
      intro hhits
      have hall := htakes.waiting.nodup_iff.mp (h.nodup_waiting hnodup)
      rw [honly w hwaits hhits] at hw
      apply (List.nodup_cons.mp hall).1 hw

/-- When no singleton is acceptable, no waiting variable is an acceptable singleton. -/
theorem Distributed.not_isSingleton (h : placement.Distributed model indices)
    (hnodup : indices.Nodup) (hsettled : placement.elimination.IsSettled tolerance) :
  ¬ placement.IsSingleton model tolerance v row
  := by
  intro hsingle
  obtain ⟨k, column, hk, hcolumn, rfl⟩ := Elimination.mem_waiting.mp hsingle.waits
  have hsame := h.placed.hits_eq hcolumn
  have hacceptable : placement.elimination.isAcceptable tolerance k row = true := by
    rw [h.placed.isAcceptable_eq hcolumn, hsingle.accepts]
  have hsingular : placement.elimination.IsRowSingleton k row
      ∨ placement.elimination.IsColumnSingleton k row := by
    rcases hsingle.only with honly | honly
    · refine Or.inl ⟨hsingle.free, hk, by rw [hsame, hsingle.hits], ?_⟩
      intro j hj hhits
      obtain ⟨other, hother⟩ := h.placed.exists_candidate hj
      rw [h.placed.hits_eq hother] at hhits
      apply Elimination.eq_of_owner_eq (h.nodup_waiting hnodup) hj hother hk hcolumn
      apply honly other.owner (Elimination.mem_waiting.mpr ⟨j, other, hj, hother, rfl⟩) hhits
    · refine Or.inr ⟨hsingle.free, hk, by rw [hsame, hsingle.hits], ?_⟩
      intro i hi hhits
      rw [hsame] at hhits
      apply honly i hi hhits
  rw [hsettled k row hsingular] at hacceptable
  cases hacceptable

/-! ### Placements within one another -/

/-- Every variable that has a row has the same one in the other placement. -/
def Within (placement last : Placement F) : Prop :=
  ∀ i v : ℕ, placement.positions[i]? = some (some v) → last.positions[i]? = some (some v)

/-- A free row in which a variable waits, for every waiting variable, and the other way around. -/
structure Saturated (model : Model F) (placement : Placement F) : Prop where
  row : ∀ i, placement.elimination.isFree i = true →
    ∃ v ∈ placement.elimination.waiting, model.hits v i = true
  column : ∀ v ∈ placement.elimination.waiting,
    ∃ i, placement.elimination.isFree i = true ∧ model.hits v i = true

/-- A row that is not free has a variable. -/
theorem Placed.exists_position (h : placement.Placed model indices) (hi : i < model.nrRows + 1)
    (hfree : ¬ placement.elimination.isFree i = true) :
  ∃ v, placement.positions[i]? = some (some v)
  := by
  rw [h.free] at hfree
  rw [← h.length] at hi
  rw [List.getElem?_eq_getElem hi] at hfree ⊢
  cases hv : placement.positions[i] with
  | none =>
      rw [hv] at hfree
      cases hfree rfl
  | some v => exact ⟨v, rfl⟩

/-- A variable waits exactly when it is a given structural one without a row. -/
theorem Regular.mem_waiting_iff (h : placement.Regular model indices) (hnodup : indices.Nodup) :
  v ∈ placement.elimination.waiting ↔ (v ∈ indices ∧ model.nrRows < v)
    ∧ ∀ i : ℕ, placement.positions[i]? ≠ some (some v)
  := by
  have hvariables := h.structurals
  rw [h.singular, List.append_nil] at hvariables
  have hmem := hvariables.mem_iff (a := v)
  have hplaced (i : ℕ) (hi : placement.positions[i]? = some (some v)) :
      v ∈ placement.filledPositions := by
    apply List.mem_of_getElem?
    rw [getElem?_filledPositions, hi]
    rfl
  simp only [List.mem_append, List.mem_filter, decide_eq_true_eq] at hmem
  constructor
  · intro hv
    refine ⟨hmem.mp (Or.inl hv), ?_⟩
    intro i hi
    have hall := hvariables.nodup_iff.mpr (hnodup.filter _)
    apply (List.nodup_append.mp hall).2.2 v hv v _ rfl
    rw [List.mem_filter, decide_eq_true_eq]
    exact ⟨hplaced i hi, (hmem.mp (Or.inl hv)).2⟩
  · rintro ⟨hv, hnone⟩
    apply (hmem.mpr hv).resolve_right
    rintro ⟨hfilled, -⟩
    obtain ⟨i, hi⟩ := List.mem_iff_getElem?.mp hfilled
    rw [getElem?_filledPositions] at hi
    obtain ⟨position, hposition, hvalue⟩ := Option.map_eq_some_iff.mp hi
    cases position with
    | none =>
        obtain ⟨hlt, -⟩ := List.getElem?_eq_some_iff.mp hposition
        rw [h.placed.length] at hlt
        rw [Option.getD_none] at hvalue
        omega
    | some w =>
        rw [Option.getD_some] at hvalue
        apply hnone i
        rw [hposition, hvalue]

/-- No variable has two rows. -/
theorem Regular.row_unique (h : placement.Regular model indices) (hnodup : indices.Nodup)
    (hlt : model.nrRows < v) {j : ℕ} (hi : placement.positions[i]? = some (some v))
    (hj : placement.positions[j]? = some (some v)) :
  i = j
  := by
  have hvariables := h.structurals.nodup_iff.mpr (hnodup.filter _)
  rw [h.singular, List.append_nil, ← map_snd_structuralRows] at hvariables
  have hrow (i : ℕ) (hi : placement.positions[i]? = some (some v)) :
      (i, v) ∈ structuralRows model.nrRows placement.filledPositions := by
    apply mem_structuralRows.mpr ⟨_, hlt⟩
    rw [getElem?_filledPositions, hi]
    rfl
  have hpair := List.inj_on_of_nodup_map (List.nodup_append.mp hvariables).2.1 (hrow i hi)
    (hrow j hj) rfl
  apply (Prod.mk_inj.mp hpair).1

section Within

variable (hindices : indices.Nodup) (hperm : indices.Perm others)
  (hplacement : placement.Regular model indices) (hlast : last.Regular model others)
  (hwithin : placement.Within last)

include hindices hperm hplacement hlast hwithin

omit hindices hperm in
theorem Within.isFree (hi : last.elimination.isFree i = true) :
  placement.elimination.isFree i = true
  := by
  by_contra hnot
  obtain ⟨v, hv⟩ := hplacement.placed.exists_position (hlast.placed.row_lt hi) hnot
  apply hlast.placed.ne_of_isFree hi (hwithin i v hv) rfl

theorem Within.mem_waiting (hv : v ∈ last.elimination.waiting) :
  v ∈ placement.elimination.waiting
  := by
  obtain ⟨⟨hother, hlt⟩, hnone⟩ := (hlast.mem_waiting_iff (hperm.nodup_iff.mp hindices)).mp hv
  apply (hplacement.mem_waiting_iff hindices).mpr
  refine ⟨⟨hperm.mem_iff.mpr hother, hlt⟩, ?_⟩
  intro i hi
  apply hnone i (hwithin i v hi)

/-- A free row that is not free in the other placement has a waiting variable there. -/
theorem Within.exists_of_isFree (hi : placement.elimination.isFree i = true)
    (hnot : ¬ last.elimination.isFree i = true) :
  ∃ v ∈ placement.elimination.waiting, last.positions[i]? = some (some v)
    ∧ model.hits v i = true
  := by
  have hothers := hperm.nodup_iff.mp hindices
  have hrow := hplacement.placed.row_lt hi
  obtain ⟨v, hv⟩ := hlast.placed.exists_position hrow hnot
  have hnone := (hplacement.placed.free i).mp hi
  have hdummy : v ≠ 0 := by
    rintro rfl
    have hzero : i = 0 := (hlast.own i 0 (by rw [getElem?_filledPositions, hv]; rfl)
      (Nat.zero_le _)).symm
    rw [hzero, hplacement.placed.dummy] at hnone
    cases hnone
  have hgiven := (hlast.given v (List.mem_of_getElem? hv)).resolve_left hdummy
  have hlt : model.nrRows < v := by
    by_contra hle
    have hown := hlast.own i v (by rw [getElem?_filledPositions, hv]; rfl) (not_lt.mp hle)
    have hslack := hplacement.slacks v (hperm.mem_iff.mpr hgiven) (not_lt.mp hle)
    rw [hown, hnone] at hslack
    cases hslack
  refine ⟨v, ?_, hv, hlast.hits i v hv hlt⟩
  apply (hplacement.mem_waiting_iff hindices).mpr
  refine ⟨⟨hperm.mem_iff.mpr hgiven, hlt⟩, ?_⟩
  intro j hj
  have hij := hlast.row_unique hothers hlt hv (hwithin j v hj)
  rw [← hij, hnone] at hj
  cases hj

/-- A waiting variable that does not wait in the other placement has a free row there. -/
theorem Within.exists_of_mem_waiting (hv : v ∈ placement.elimination.waiting)
    (hnot : v ∉ last.elimination.waiting) :
  ∃ i, placement.elimination.isFree i = true ∧ last.positions[i]? = some (some v)
    ∧ model.hits v i = true
  := by
  have hothers := hperm.nodup_iff.mp hindices
  obtain ⟨⟨hgiven, hlt⟩, hnone⟩ := (hplacement.mem_waiting_iff hindices).mp hv
  rw [hlast.mem_waiting_iff hothers, not_and, not_forall] at hnot
  obtain ⟨i, hi⟩ := hnot ⟨hperm.mem_iff.mp hgiven, hlt⟩
  rw [not_ne_iff] at hi
  refine ⟨i, ?_, hi, hlast.hits i v hi hlt⟩
  by_contra hfree
  have hrow : i < model.nrRows + 1 := by
    rw [← hlast.placed.length]
    apply (List.getElem?_eq_some_iff.mp hi).1
  obtain ⟨w, hw⟩ := hplacement.placed.exists_position hrow hfree
  have hsame := hwithin i w hw
  rw [hi, Option.some_inj, Option.some_inj] at hsame
  apply hnone i
  rw [hw, hsame]

/-- A singleton of a placement has its row in a saturated one without acceptable singletons. -/
theorem Within.position_of_isSingleton (hsaturated : last.Saturated model)
    (hsettled : last.elimination.IsSettled tolerance)
    (hsingle : placement.IsSingleton model tolerance v row) :
  last.positions[row]? = some (some v)
  := by
  have hothers := hperm.nodup_iff.mp hindices
  have hnone : ¬ last.IsSingleton model tolerance v row :=
    hlast.not_isSingleton hothers hsettled
  have hfree {i : ℕ} := hwithin.isFree hplacement hlast (i := i)
  have hwaits {w : ℕ} := hwithin.mem_waiting hindices hperm hplacement hlast (v := w)
  rcases hsingle.only with honly | honly
  · by_cases hrow : last.elimination.isFree row = true
    · obtain ⟨w, hw, hhits⟩ := hsaturated.row row hrow
      rw [honly w (hwaits hw) hhits] at hw
      cases hnone ⟨hw, hrow, hsingle.hits, hsingle.accepts,
        Or.inl fun x hx => honly x (hwaits hx)⟩
    · obtain ⟨w, hw, hposition, hhits⟩ :=
        hwithin.exists_of_isFree hindices hperm hplacement hlast hsingle.free hrow
      rw [honly w hw hhits] at hposition
      apply hposition
  · by_cases hv : v ∈ last.elimination.waiting
    · obtain ⟨i, hi, hhits⟩ := hsaturated.column v hv
      rw [honly i (hfree hi) hhits] at hi
      cases hnone ⟨hv, hi, hsingle.hits, hsingle.accepts,
        Or.inr fun j hj => honly j (hfree hj)⟩
    · obtain ⟨i, hi, hposition, hhits⟩ :=
        hwithin.exists_of_mem_waiting hindices hperm hplacement hlast hsingle.waits hv
      rw [honly i hi hhits] at hposition
      apply hposition

/-- Taking a singleton stays within a saturated placement without acceptable singletons. -/
theorem Within.takes (hsaturated : last.Saturated model)
    (hsettled : last.elimination.IsSettled tolerance)
    (htakes : placement.Takes model tolerance result v row) :
  result.Within last
  := by
  intro i w hw
  rw [htakes.positions] at hw
  by_cases hi : row = i
  · subst hi
    obtain ⟨hrow, -⟩ :=
      List.getElem?_eq_some_iff.mp ((hplacement.placed.free row).mp htakes.single.free)
    rw [List.getElem?_set_self hrow] at hw
    rw [← hw]
    apply hwithin.position_of_isSingleton hindices hperm hplacement hlast hsaturated hsettled
      htakes.single
  · rw [List.getElem?_set_ne hi] at hw
    apply hwithin i w hw

/-- A placement within a saturated one is saturated. -/
theorem Within.saturated (hsaturated : last.Saturated model) :
  placement.Saturated model
  := by
  constructor
  · intro i hi
    by_cases hrow : last.elimination.isFree i = true
    · obtain ⟨v, hv, hhits⟩ := hsaturated.row i hrow
      exact ⟨v, hwithin.mem_waiting hindices hperm hplacement hlast hv, hhits⟩
    · obtain ⟨v, hv, -, hhits⟩ :=
        hwithin.exists_of_isFree hindices hperm hplacement hlast hi hrow
      exact ⟨v, hv, hhits⟩
  · intro v hv
    by_cases hwaits : v ∈ last.elimination.waiting
    · obtain ⟨i, hi, hhits⟩ := hsaturated.column v hwaits
      exact ⟨i, hwithin.isFree hplacement hlast hi, hhits⟩
    · obtain ⟨i, hi, -, hhits⟩ :=
        hwithin.exists_of_mem_waiting hindices hperm hplacement hlast hv hwaits
      exact ⟨i, hi, hhits⟩

end Within

/-- Placements within each other have the same positions. -/
theorem Within.antisymm (hfirst : placement.Placed model indices)
    (hsecond : last.Placed model others) (h : placement.Within last)
    (hback : last.Within placement) :
  placement.positions = last.positions
  := by
  apply List.ext_getElem?
  intro i
  cases hi : placement.positions[i]? with
  | none =>
      rw [List.getElem?_eq_none_iff, hfirst.length, ← hsecond.length] at hi
      rw [List.getElem?_eq_none hi]
  | some position =>
      cases position with
      | some v => rw [h i v hi]
      | none =>
          obtain ⟨hlt, -⟩ := List.getElem?_eq_some_iff.mp hi
          rw [hfirst.length, ← hsecond.length] at hlt
          rw [List.getElem?_eq_getElem hlt]
          cases hv : last.positions[i] with
          | none => rfl
          | some v =>
              have hother := hback i v (by rw [List.getElem?_eq_getElem hlt, hv])
              rw [hi] at hother
              cases hother

/-! ### Singleton phases -/

theorem owner_of_candidate? (h : candidate? model v = some column) :
  column.owner = v
  := by
  unfold candidate? at h
  obtain ⟨entries, -, h⟩ := Option.bind_eq_some_iff.mp h
  obtain ⟨nrNonzeros, -, h⟩ := Option.bind_eq_some_iff.mp h
  cases h
  rfl

/-- At the start only given slacks have rows, which every placement of the same variables has given
to them too. -/
theorem start?_regular (hnodup : indices.Nodup)
    (hindices : ∀ v ∈ indices, 0 < v ∧ v < model.nrVariables)
    (hstart : start? model indices = some placement) :
  placement.Regular model indices ∧ placement.elimination.isFree 0 = false
    ∧ ∀ {others : List ℕ} {last : Placement F}, indices.Perm others →
      last.Regular model others → placement.Within last
  := by
  obtain ⟨other, hother, haccounted, -⟩ :=
    exists_start?_accounted (hnodup.filter _) hindices
  obtain ⟨positions, candidates, hsome, -, -, hown, -⟩ := exists_start? (hnodup.filter _) hindices
  rw [hstart, Option.some_inj] at hother hsome
  rw [← hother] at haccounted
  have hpositions : placement.positions = positions := by rw [hsome]
  rw [← hpositions] at hown
  have hslack (i v : ℕ) (hv : placement.positions[i]? = some (some v)) : v ≤ model.nrRows := by
    obtain ⟨hlt, -⟩ := List.getElem?_eq_some_iff.mp hv
    rw [haccounted.placed.length] at hlt
    rw [(hown i v hv).1]
    apply Nat.le_of_lt_succ hlt
  refine ⟨⟨haccounted, ?_, by rw [hsome], ?_, ?_⟩, ?_, ?_⟩
  · intro column hcolumn
    obtain ⟨_, named, -, hnamed, rfl⟩ := start?_spec hstart
    obtain ⟨v, -, hv⟩ := exists_of_mem_mapM hnamed hcolumn
    rw [owner_of_candidate? hv, hv]
  · intro i v hv hlt
    cases (hslack i v hv).not_gt hlt
  · intro v _ eta heta
    rw [hsome] at heta
    cases heta
  · apply haccounted.placed.isFree_zero
  · intro others last hperm hlast i v hv
    obtain ⟨rfl, hzero | hgiven⟩ := hown i v hv
    · rw [hzero, hlast.placed.dummy]
    · apply hlast.slacks v (hperm.mem_iff.mp hgiven) (hslack v v hv)

/-- What every taken singleton keeps holds at the end of the singleton phase. -/
theorem placeSingletons?_induction {motive : Placement F → Prop}
    (hplacement : placement.Regular model indices)
    (hnodup : indices.Nodup)
    (hstep : ∀ {placement result : Placement F} {v row : ℕ},
      placement.Regular model indices → placement.Takes model tolerance result v row →
      motive placement → motive result)
    (hmotive : motive placement) (h : placement.placeSingletons? tolerance = some result) :
  result.Regular model indices ∧ motive result
  := by
  refine takeSingletons?_induction (motive := fun p => p.Regular model indices ∧ motive p) ?_ ?_
    ⟨hplacement, hmotive⟩ h
  · rintro row placement queues result later ⟨hregular, hmotive⟩ htake
    rcases hregular.placed.takeRow?_takes htake with rfl | ⟨v, row, htakes⟩
    · exact ⟨hregular, hmotive⟩
    · exact ⟨hregular.takes hnodup (hregular.toAccounted.takeRow? htake) htakes,
        hstep hregular htakes hmotive⟩
  · rintro k placement queues result later ⟨hregular, hmotive⟩ htake
    rcases hregular.placed.takeColumn?_takes htake with rfl | ⟨v, row, htakes⟩
    · exact ⟨hregular, hmotive⟩
    · exact ⟨hregular.takes hnodup (hregular.toAccounted.takeColumn? htake) htakes,
        hstep hregular htakes hmotive⟩

/-- The singleton phase gives the same rows in every order of the variables, when it ends saturated
in one of them. -/
theorem positions_of_placeSingletons? {first second : List ℕ} (hperm : first.Perm second)
    (hnodup : first.Nodup) (hindices : ∀ v ∈ first, 0 < v ∧ v < model.nrVariables)
    {firstStart secondStart firstEnd secondEnd : Placement F}
    (hfirst : start? model first = some firstStart)
    (hfirstEnd : firstStart.placeSingletons? tolerance = some firstEnd)
    (hsecond : start? model second = some secondStart)
    (hsecondEnd : secondStart.placeSingletons? tolerance = some secondEnd)
    (hsaturated : firstEnd.Saturated model) :
  firstEnd.Regular model first ∧ secondEnd.Regular model second
    ∧ secondEnd.positions = firstEnd.positions
  := by
  have hother := hperm.nodup_iff.mp hnodup
  have hvalid : ∀ v ∈ second, 0 < v ∧ v < model.nrVariables := by
    intro v hv
    apply hindices v (hperm.mem_iff.mpr hv)
  obtain ⟨hfirstRegular, hfirstDummy, hfirstWithin⟩ := start?_regular hnodup hindices hfirst
  obtain ⟨hsecondRegular, hsecondDummy, hsecondWithin⟩ := start?_regular hother hvalid hsecond
  have hfirstSettled := placeSingletons?_settled hfirstRegular.placed.counted hfirstDummy hfirstEnd
  have hsecondSettled :=
    placeSingletons?_settled hsecondRegular.placed.counted hsecondDummy hsecondEnd
  obtain ⟨hfirstRegularEnd, -⟩ := placeSingletons?_induction (motive := fun _ => True)
    hfirstRegular hnodup (fun _ _ _ => trivial) trivial hfirstEnd
  obtain ⟨hsecondRegularEnd, hwithin⟩ := placeSingletons?_induction
    (motive := fun p => p.Within firstEnd) hsecondRegular hother
    (fun hregular htakes hwithin =>
      hwithin.takes hother hperm.symm hregular hfirstRegularEnd hsaturated hfirstSettled htakes)
    (hsecondWithin hperm.symm hfirstRegularEnd) hsecondEnd
  have hsaturatedEnd :=
    hwithin.saturated hother hperm.symm hsecondRegularEnd hfirstRegularEnd hsaturated
  obtain ⟨-, hback⟩ := placeSingletons?_induction
    (motive := fun p => p.Within secondEnd) hfirstRegular hnodup
    (fun hregular htakes hwithin =>
      hwithin.takes hnodup hperm hregular hsecondRegularEnd hsaturatedEnd hsecondSettled htakes)
    (hfirstWithin hperm hsecondRegularEnd) hfirstEnd
  refine ⟨hfirstRegularEnd, hsecondRegularEnd, ?_⟩
  apply hwithin.antisymm hsecondRegularEnd.placed hfirstRegularEnd.placed hback

end Placement

end RevisedSimplex
