import RevisedSimplex.Proofs.AugmentedSystem
import RevisedSimplex.Proofs.BoundTests
import RevisedSimplex.Proofs.IterateSizes
import RevisedSimplex.Proofs.PackedNumbers

/-!
# Edits of bounds

The bounds of a variable come from three places: the relation of its row, the ends that the model
was made with, and later edits, of a variable or of the range of a row.  All of them go through
`Bounds.ofEndpoints?`, so that the bounds are `Regular` at any time: no bound is undefined or at the
wrong infinity, and their distance is a number that is not negative.

An edit replaces the bounds of one variable and leaves the rest of the model alone (`Edited`), or it
fails and there is nothing to replace.  The bounds that a variable has after a sequence of edits are
therefore those of the last one that reached it, and the range of a row is what the slack allows.
-/

namespace RevisedSimplex

/-! ### Ends -/

section Ends

variable {F : Type} [Scalar F] {lower upper endpoint : Endpoint F} {bounds : Bounds F}

/-- The end is written as an infinity or as undefined if it is so, and as a number otherwise. -/
def Endpoint.Proper (endpoint : Endpoint F) : Prop :=
  ∀ x, endpoint = .value x → Scalar.isFinite x = true

/-- What a number stands for is proper, infinities and undefined numbers included. -/
theorem Endpoint.proper_of (x : F) :
  (of x).Proper
  := by
  intro y hy
  unfold of at hy
  split at hy
  · cases hy
  · split at hy
    · rename_i hfinite
      cases hy
      apply hfinite
    · split at hy <;> cases hy

theorem Endpoint.proper_zero [MeasuredScalar F] :
  (value (0 : F)).Proper
  := by
  rintro _ ⟨⟩
  apply MeasuredScalar.isFinite_zero

theorem Endpoint.proper_plusInfinity :
  (plusInfinity : Endpoint F).Proper
  := by
  rintro _ ⟨⟩

theorem Endpoint.Proper.negate [MeasuredScalar F] (h : endpoint.Proper) :
  endpoint.negate.Proper
  := by
  cases endpoint with
  | value x =>
      rintro _ ⟨⟩
      rw [MeasuredScalar.isFinite_neg]
      apply h x rfl
  | _ => rintro _ ⟨⟩

theorem Relation.proper_rangeEnds [MeasuredScalar F] (relation : Relation)
    (h : endpoint.Proper) :
  (relation.rangeEnds endpoint).1.Proper ∧ (relation.rangeEnds endpoint).2.Proper
  := by
  cases relation with
  | less => exact ⟨Endpoint.proper_zero, h⟩
  | equal => exact ⟨Endpoint.proper_zero, h⟩
  | greater => exact ⟨h.negate, Endpoint.proper_zero⟩

/-- The bounds are finite numbers as far as there are any, so that none of them is undefined, a
lower bound is not plus infinity and an upper bound not minus infinity.  They are in order, and
their distance is not negative. -/
structure Bounds.Regular (bounds : Bounds F) : Prop where
  lower : ∀ l, bounds.lower = some l → Scalar.isFinite l = true ∧ Scalar.isNaN l = false
  upper : ∀ u, bounds.upper = some u → Scalar.isFinite u = true ∧ Scalar.isNaN u = false
  ordered : ∀ l u, bounds.lower = some l → bounds.upper = some u → l ≤ u
  range : ∀ r, bounds.range? = some r → 0 ≤ r ∧ Scalar.isNaN r = false

namespace Bounds

/-- The bounds with two ends are those of the ends that are numbers. -/
theorem ends_of_ofEndpoints? (h : ofEndpoints? lower upper = some bounds) :
  (∀ l, bounds.lower = some l ↔ lower = .value l)
    ∧ ∀ u, bounds.upper = some u ↔ upper = .value u
  := by
  unfold ofEndpoints? at h
  split at h
  · split at h
    · cases h
      simp [between]
    · cases h
  · cases h
    simp [atLeast]
  · cases h
    simp [atMost]
  · cases h
    simp [free]
  · cases h

variable [MeasuredScalar F]

theorem regular_of_finite (hlower : ∀ l, bounds.lower = some l → Scalar.isFinite l = true)
    (hupper : ∀ u, bounds.upper = some u → Scalar.isFinite u = true) :
  bounds.Regular
  where
  lower l hl := ⟨hlower l hl, MeasuredScalar.isNaN_of_isFinite (hlower l hl)⟩
  upper u hu := ⟨hupper u hu, MeasuredScalar.isNaN_of_isFinite (hupper u hu)⟩
  ordered := bounds.ordered
  range r hr := by
    have hnonneg : 0 ≤ r := by
      unfold range? at hr
      split at hr
      · rename_i l u hl hu
        cases hr
        apply MeasuredScalar.sub_nonneg (hlower l hl) (hupper u hu) (bounds.ordered l u hl hu)
      · cases hr
    exact ⟨hnonneg, MeasuredScalar.isNaN_of_nonneg hnonneg⟩

theorem regular_of_ofEndpoints? (hlower : lower.Proper) (hupper : upper.Proper)
    (h : ofEndpoints? lower upper = some bounds) :
  bounds.Regular
  := by
  obtain ⟨hl, hu⟩ := ends_of_ofEndpoints? h
  apply regular_of_finite
  · intro l hsome
    apply hlower l ((hl l).mp hsome)
  · intro u hsome
    apply hupper u ((hu u).mp hsome)

theorem regular_free :
  (free : Bounds F).Regular
  := by
  have hends : ofEndpoints? .minusInfinity .plusInfinity = some (free : Bounds F) := rfl
  apply regular_of_ofEndpoints? _ _ hends
  · rintro _ ⟨⟩
  · rintro _ ⟨⟩

theorem regular_slackBounds (relation : Relation) :
  (relation.slackBounds : Bounds F).Regular
  := by
  cases relation with
  | less =>
      apply regular_of_ofEndpoints? Endpoint.proper_zero Endpoint.proper_plusInfinity rfl
  | equal =>
      have hends : ofEndpoints? (.value (0 : F)) (.value 0)
          = some (Relation.equal.slackBounds : Bounds F) := dif_pos Scalar.zero_le_zero
      apply regular_of_ofEndpoints? Endpoint.proper_zero Endpoint.proper_zero hends
  | greater =>
      apply regular_of_ofEndpoints? Endpoint.proper_plusInfinity.negate Endpoint.proper_zero rfl

end Bounds

end Ends

/-! ### Edits -/

/-- A call that changes bounds. -/
inductive BoundEdit (F : Type) where
  /-- New bounds for a variable. -/
  | bounds (index : ℕ) (lower upper : Endpoint F)
  /-- A range of values for a row, counted from zero. -/
  | rowRange (row : ℕ) (range : Endpoint F)

namespace BoundEdit

variable {F : Type} [Scalar F]

/-- The variable whose bounds are to change. -/
def target : BoundEdit F → ℕ
  | bounds index _ _ => index
  | rowRange row _ => row + 1

/-- The ends that the call is given are proper. -/
def Proper : BoundEdit F → Prop
  | bounds _ lower upper => lower.Proper ∧ upper.Proper
  | rowRange _ range => range.Proper

/-- The ends of the new bounds in a model. -/
def ends? (model : Model F) : BoundEdit F → Option (Endpoint F × Endpoint F)
  | bounds _ lower upper => some (lower, upper)
  | rowRange row range => model.relations[row]?.map fun relation => relation.rangeEnds range

theorem Proper.ends [MeasuredScalar F] {edit : BoundEdit F} (h : edit.Proper) {model : Model F}
    {ends : Endpoint F × Endpoint F} (hends : edit.ends? model = some ends) :
  ends.1.Proper ∧ ends.2.Proper
  := by
  cases edit with
  | bounds index lower upper =>
      cases hends
      apply h
  | rowRange row range =>
      obtain ⟨relation, -, rfl⟩ := Option.map_eq_some_iff.mp hends
      apply relation.proper_rangeEnds h

end BoundEdit

namespace Model

variable {F : Type} [Scalar F] {model edited final : Model F} {edit : BoundEdit F}
  {edits : List (BoundEdit F)} {v : ℕ}

/-- What the call for an edit returns. -/
def edit? (model : Model F) : BoundEdit F → Option (Except Error (Model F))
  | .bounds index lower upper => some (model.setBounds index lower upper)
  | .rowRange row range => model.setRowRange? row range

/-- The model that is there after the call. -/
def afterEdit (model : Model F) (edit : BoundEdit F) : Model F :=
  match model.edit? edit with
  | some (.ok edited) => edited
  | _ => model

/-- The model that is there after some calls. -/
def afterEdits (model : Model F) (edits : List (BoundEdit F)) : Model F :=
  edits.foldl afterEdit model

/-- Two models differ in their bounds at most. -/
structure SameData (first second : Model F) : Prop where
  matrix : second.matrix = first.matrix
  cost : second.cost = first.cost
  rightHandSide : second.rightHandSide = first.rightHandSide
  relations : second.relations = first.relations
  goal : second.goal = first.goal

theorem SameData.refl (model : Model F) :
  model.SameData model
  := ⟨rfl, rfl, rfl, rfl, rfl⟩

theorem SameData.trans (h : model.SameData edited) (h' : edited.SameData final) :
  model.SameData final
  where
  matrix := h'.matrix.trans h.matrix
  cost := h'.cost.trans h.cost
  rightHandSide := h'.rightHandSide.trans h.rightHandSide
  relations := h'.relations.trans h.relations
  goal := h'.goal.trans h.goal

theorem SameData.nrVariables (h : model.SameData edited) :
  edited.nrVariables = model.nrVariables
  := by
  unfold Model.nrVariables nrRows nrColumns
  rw [h.matrix]

/-- What an edit does that succeeds: its variable gets the bounds with the ends of the edit, and all
else stays as it is. -/
structure Edited (model : Model F) (edit : BoundEdit F) (edited : Model F) : Prop
    extends model.SameData edited where
  target : 0 < edit.target ∧ edit.target < model.nrVariables
  bounds : ∃ ends bounds, edit.ends? model = some ends
    ∧ Bounds.ofEndpoints? ends.1 ends.2 = some bounds ∧ edited.bounds? edit.target = some bounds
  others : ∀ v ≠ edit.target, edited.bounds? v = model.bounds? v

theorem bounds_of_boundsFor {index : ℕ} {lower upper : Endpoint F} {bounds : Bounds F}
    (h : boundsFor index lower upper = .ok bounds) :
  Bounds.ofEndpoints? lower upper = some bounds
  := by
  unfold boundsFor at h
  split at h
  · cases h
    assumption
  · cases h

/-- The inversion of a successful change of bounds. -/
theorem setBounds_eq_ok {index : ℕ} {lower upper : Endpoint F}
    (h : model.setBounds index lower upper = .ok edited) :
  0 < index ∧ index < model.nrVariables ∧ model.SameData edited
    ∧ ∃ bounds, Bounds.ofEndpoints? lower upper = some bounds
      ∧ edited.bounds = model.bounds.set (index - 1) bounds
  := by
  unfold setBounds at h
  split at h
  · cases h
  · rename_i hrange
    cases hbounds : boundsFor index lower upper with
    | error e =>
        rw [hbounds] at h
        cases h
    | ok bounds =>
        rw [hbounds] at h
        cases h
        exact ⟨by omega, by omega, ⟨rfl, rfl, rfl, rfl, rfl⟩, bounds, bounds_of_boundsFor hbounds,
          rfl⟩

/-- The range of a row is a change of the bounds of its slack. -/
theorem setRowRange?_eq_ok {row : ℕ} {range : Endpoint F}
    (h : model.setRowRange? row range = some (.ok edited)) :
  ∃ relation, model.relations[row]? = some relation
    ∧ model.setBounds (row + 1) (relation.rangeEnds range).1 (relation.rangeEnds range).2
      = .ok edited
  := by
  unfold setRowRange? at h
  obtain ⟨slack, hslack, h⟩ := Option.bind_eq_some_iff.mp h
  unfold slackIndex? at hslack
  split at hslack
  · cases hslack
    split at h
    · cases h
    · rename_i relation hrelation
      exact ⟨relation, hrelation, Option.some.inj h⟩
  · cases hslack

theorem edited_of_setBounds {index : ℕ} {lower upper : Endpoint F}
    (h : model.setBounds index lower upper = .ok edited) (htarget : edit.target = index)
    (hends : edit.ends? model = some (lower, upper)) :
  model.Edited edit edited
  := by
  subst htarget
  obtain ⟨hpos, hlt, hsame, bounds, hbounds, hset⟩ := setBounds_eq_ok h
  obtain ⟨k, hk⟩ := Nat.exists_eq_succ_of_ne_zero hpos.ne'
  rw [hk, Nat.succ_sub_one] at hset
  refine ⟨hsame, ⟨hpos, hlt⟩, ⟨_, bounds, hends, hbounds, ?_⟩, ?_⟩
  · have hbound : k < model.bounds.length := by
      have hlength := model.bounds_length
      unfold nrVariables nrRows nrColumns at hlt
      omega
    unfold bounds?
    rw [hk, hset, List.getElem?_cons_succ, List.getElem?_set_self hbound]
  · intro w hw
    unfold bounds?
    rw [hset]
    cases w with
    | zero => rfl
    | succ j =>
        rw [List.getElem?_cons_succ, List.getElem?_cons_succ, List.getElem?_set_ne]
        omega

/-- A call that succeeds changes the bounds of its variable and nothing else. -/
theorem edited_of_edit? (h : model.edit? edit = some (.ok edited)) :
  model.Edited edit edited
  := by
  cases edit with
  | bounds index lower upper => apply edited_of_setBounds (Option.some.inj h) rfl rfl
  | rowRange row range =>
      obtain ⟨relation, hrelation, hset⟩ := setRowRange?_eq_ok h
      apply edited_of_setBounds hset rfl
      apply Option.map_eq_some_iff.mpr ⟨relation, hrelation, rfl⟩

/-- After a call the model is edited or the same one. -/
theorem afterEdit_cases (model : Model F) (edit : BoundEdit F) :
  (model.edit? edit = some (.ok (model.afterEdit edit))
      ∧ model.Edited edit (model.afterEdit edit))
    ∨ (∀ edited, model.edit? edit ≠ some (.ok edited)) ∧ model.afterEdit edit = model
  := by
  unfold afterEdit
  split
  · rename_i edited hedited
    exact Or.inl ⟨hedited, edited_of_edit? hedited⟩
  · rename_i hfailed
    exact Or.inr ⟨hfailed, rfl⟩

theorem sameData_afterEdit (model : Model F) (edit : BoundEdit F) :
  model.SameData (model.afterEdit edit)
  := by
  rcases afterEdit_cases model edit with ⟨-, hedited⟩ | ⟨-, hsame⟩
  · apply hedited.toSameData
  · rw [hsame]
    apply SameData.refl

theorem sameData_afterEdits (edits : List (BoundEdit F)) :
    ∀ model : Model F, model.SameData (model.afterEdits edits)
  := by
  induction edits with
  | nil => exact SameData.refl
  | cons edit edits ih =>
      intro model
      apply (sameData_afterEdit model edit).trans (ih _)

/-- None of the edits reaches the variable: one that aims at it fails. -/
def Leaves (v : ℕ) : Model F → List (BoundEdit F) → Prop
  | _, [] => True
  | model, edit :: edits =>
      (edit.target = v → ∀ edited, model.edit? edit ≠ some (.ok edited))
        ∧ Leaves v (model.afterEdit edit) edits

/-- A variable that is not reached keeps its bounds. -/
theorem Leaves.bounds?_eq :
    ∀ {edits : List (BoundEdit F)} {model : Model F}, Leaves v model edits →
      (model.afterEdits edits).bounds? v = model.bounds? v
  | [], _, _ => rfl
  | edit :: edits, model, ⟨hfails, hleaves⟩ => by
      apply hleaves.bounds?_eq.trans
      rcases afterEdit_cases model edit with ⟨hok, hedited⟩ | ⟨-, hsame⟩
      · apply hedited.others
        intro htarget
        apply hfails htarget.symm _ hok
      · rw [hsame]

/-! ### Regular bounds -/

/-- All variables of the model have regular bounds. -/
def RegularBounds (model : Model F) : Prop :=
  ∀ v < model.nrVariables, ∃ bounds, model.bounds? v = some bounds ∧ bounds.Regular

/-- The models that can be made, with proper ends for the bounds of the structural variables. -/
inductive Made : Model F → Prop
  | ofParts {matrix : ColumnMatrix F} {cost rightHandSide : DenseVector F}
      {relations : List Relation} {goal : Goal} {ends : List (Endpoint F × Endpoint F)}
      {model : Model F} (hends : ∀ pair ∈ ends, pair.1.Proper ∧ pair.2.Proper)
      (h : Model.ofParts matrix cost rightHandSide relations goal ends = .ok model) : Made model
  | nonnegative {matrix : ColumnMatrix F} {cost rightHandSide : DenseVector F}
      {relations : List Relation} {goal : Goal} {model : Model F}
      (h : Model.nonnegative matrix cost rightHandSide relations goal = .ok model) : Made model

variable [MeasuredScalar F]

theorem regular_of_boundsFrom {ends : List (Endpoint F × Endpoint F)}
    (hends : ∀ pair ∈ ends, pair.1.Proper ∧ pair.2.Proper) {first : ℕ}
    {result : { bounds : List (Bounds F) // bounds.length = ends.length }}
    (h : boundsFrom first ends = .ok result) :
  ∀ bounds ∈ result.val, bounds.Regular
  := by
  induction ends generalizing first with
  | nil =>
      cases h
      intro bounds hmem
      cases hmem
  | cons pair ends ih =>
      obtain ⟨lower, upper⟩ := pair
      unfold boundsFrom at h
      cases hhead : boundsFor first lower upper with
      | error e =>
          rw [hhead] at h
          cases h
      | ok head =>
          rw [hhead] at h
          cases htail : boundsFrom (first + 1) ends with
          | error e =>
              rw [htail] at h
              cases h
          | ok tail =>
              rw [htail] at h
              cases h
              obtain ⟨hlower, hupper⟩ := hends _ List.mem_cons_self
              intro bounds hmem
              rcases List.mem_cons.mp hmem with rfl | hmem
              · apply Bounds.regular_of_ofEndpoints? hlower hupper (bounds_of_boundsFor hhead)
              · apply ih (fun pair hpair => hends pair (List.mem_cons_of_mem _ hpair)) htail _ hmem

theorem regularBounds_of_ofParts {matrix : ColumnMatrix F} {cost rightHandSide : DenseVector F}
    {relations : List Relation} {goal : Goal} {ends : List (Endpoint F × Endpoint F)}
    (hends : ∀ pair ∈ ends, pair.1.Proper ∧ pair.2.Proper)
    (h : ofParts matrix cost rightHandSide relations goal ends = .ok model) :
  model.RegularBounds
  := by
  obtain ⟨-, -, -, result, hresult, hbounds⟩ := ofParts_eq_ok h
  intro v hv
  obtain ⟨bounds, hsome⟩ := exists_bounds? hv
  refine ⟨bounds, hsome, ?_⟩
  rcases List.mem_cons.mp (List.mem_of_getElem? hsome) with rfl | hmem
  · apply Bounds.regular_free
  · rw [hbounds, List.mem_append, List.mem_map] at hmem
    rcases hmem with ⟨relation, -, rfl⟩ | hmem
    · apply Bounds.regular_slackBounds
    · apply regular_of_boundsFrom hends hresult bounds hmem

theorem Made.regularBounds (h : model.Made) :
  model.RegularBounds
  := by
  cases h with
  | ofParts hends h => apply regularBounds_of_ofParts hends h
  | nonnegative h =>
      apply regularBounds_of_ofParts _ h
      intro pair hpair
      rw [List.eq_of_mem_replicate hpair]
      exact ⟨Endpoint.proper_zero, Endpoint.proper_plusInfinity⟩

theorem RegularBounds.afterEdit (h : model.RegularBounds) (hproper : edit.Proper) :
  (model.afterEdit edit).RegularBounds
  := by
  rcases afterEdit_cases model edit with ⟨-, hedited⟩ | ⟨-, hsame⟩
  · intro v hv
    rw [hedited.nrVariables] at hv
    by_cases htarget : v = edit.target
    · obtain ⟨ends, bounds, hends, hbounds, hsome⟩ := hedited.bounds
      obtain ⟨hlower, hupper⟩ := hproper.ends hends
      rw [htarget]
      exact ⟨bounds, hsome, Bounds.regular_of_ofEndpoints? hlower hupper hbounds⟩
    · rw [hedited.others v htarget]
      apply h v hv
  · rw [hsame]
    apply h

theorem RegularBounds.afterEdits :
    ∀ {edits : List (BoundEdit F)} {model : Model F}, model.RegularBounds →
      (∀ edit ∈ edits, edit.Proper) → (model.afterEdits edits).RegularBounds
  | [], _, h, _ => h
  | edit :: edits, model, h, hproper => by
      have hedited := h.afterEdit (hproper edit List.mem_cons_self)
      apply hedited.afterEdits
      intro later hmem
      apply hproper later (List.mem_cons_of_mem edit hmem)

end Model

/-! ### Ranges of rows -/

section Ranges

variable {F : Type} [ExactScalar F] {bounds : Bounds F}

/-- The values that the left hand side of a row with a right hand side may have after the row was
given a range. -/
def Relation.Allows (rightHandSide : F) (range : Endpoint F) (value : F) : Relation → Prop
  | less | equal => (∀ r, range = .value r → rightHandSide - r ≤ value) ∧ value ≤ rightHandSide
  | greater => rightHandSide ≤ value ∧ ∀ r, range = .value r → value ≤ rightHandSide + r

/-- A range is a number that is not negative, or infinite. -/
theorem Relation.range_of_ofEndpoints? {relation : Relation} {range : Endpoint F}
    (h : Bounds.ofEndpoints? (relation.rangeEnds range).1 (relation.rangeEnds range).2
      = some bounds) :
  range = .plusInfinity ∨ ∃ r, range = .value r ∧ 0 ≤ r
  := by
  cases range with
  | value r =>
      refine Or.inr ⟨r, rfl, ?_⟩
      obtain ⟨hlower, hupper⟩ := Bounds.ends_of_ofEndpoints? h
      cases relation with
      | greater =>
          have hordered := bounds.ordered (-r) 0 ((hlower _).mpr rfl) ((hupper _).mpr rfl)
          linarith
      | less => apply bounds.ordered 0 r ((hlower _).mpr rfl) ((hupper _).mpr rfl)
      | equal => apply bounds.ordered 0 r ((hlower _).mpr rfl) ((hupper _).mpr rfl)
  | plusInfinity => exact Or.inl rfl
  | minusInfinity => cases relation <;> cases h
  | undefined => cases relation <;> cases h

/-- What is left of the right hand side lies within the ends of the slack when the row allows the
value of its left hand side.  For a greater row both are mirrored. -/
theorem Relation.contains_iff_allows {relation : Relation} {range : Endpoint F}
    (h : Bounds.ofEndpoints? (relation.rangeEnds range).1 (relation.rangeEnds range).2
      = some bounds) (rightHandSide value : F) :
  bounds.Contains (rightHandSide - value) ↔ relation.Allows rightHandSide range value
  := by
  obtain ⟨hlower, hupper⟩ := Bounds.ends_of_ofEndpoints? h
  have hcontains : bounds.Contains (rightHandSide - value)
      ↔ (∀ l, (relation.rangeEnds range).1 = .value l → l ≤ rightHandSide - value)
        ∧ ∀ u, (relation.rangeEnds range).2 = .value u → rightHandSide - value ≤ u := by
    constructor
    · intro hcontains
      exact ⟨fun l hl => hcontains.lower l ((hlower l).mpr hl),
        fun u hu => hcontains.upper u ((hupper u).mpr hu)⟩
    · rintro ⟨hl, hu⟩
      exact ⟨fun l hsome => hl l ((hlower l).mp hsome), fun u hsome => hu u ((hupper u).mp hsome)⟩
  rw [hcontains]
  have hdown :
      ((∀ l, Endpoint.value (0 : F) = .value l → l ≤ rightHandSide - value)
          ∧ ∀ u, range = .value u → rightHandSide - value ≤ u)
        ↔ (∀ r, range = .value r → rightHandSide - r ≤ value) ∧ value ≤ rightHandSide := by
    simp only [Endpoint.value.injEq, forall_eq', sub_nonneg, sub_le_comm, and_comm]
  cases relation with
  | less => apply hdown
  | equal => apply hdown
  | greater =>
      have hnegate (l : F) : range.negate = .value l ↔ range = .value (-l) := by
        cases range <;> simp [Endpoint.negate, neg_eq_iff_eq_neg]
      change (∀ l, range.negate = .value l → l ≤ rightHandSide - value)
          ∧ (∀ u, Endpoint.value (0 : F) = .value u → rightHandSide - value ≤ u)
        ↔ rightHandSide ≤ value ∧ ∀ r, range = .value r → value ≤ rightHandSide + r
      simp only [hnegate, Endpoint.value.injEq, forall_eq', sub_nonpos]
      rw [and_comm, and_congr_right_iff]
      intro _
      constructor
      · intro hl r hr
        have hle := hl (-r) (by rw [neg_neg, hr])
        linarith
      · intro hu l hl
        have hle := hu (-l) hl
        linarith

end Ranges

namespace Model

/-- The slack of a row with a range has the bounds that its ends give it, as long as no later edit
reaches it. -/
theorem exists_allows {F : Type} [ExactScalar F] {model edited : Model F} {row : ℕ}
    {range : Endpoint F} (h : model.setRowRange? row range = some (.ok edited))
    {later : List (BoundEdit F)} (hlater : Leaves (row + 1) edited later) :
  (range = .plusInfinity ∨ ∃ r, range = .value r ∧ 0 ≤ r)
    ∧ ∃ relation rightHandSide bounds,
      (edited.afterEdits later).relations[row]? = some relation
      ∧ (edited.afterEdits later).rightHandSide? (row + 1) = some rightHandSide
      ∧ (edited.afterEdits later).bounds? (row + 1) = some bounds
      ∧ ∀ x : DenseVector F,
        let value := ((edited.afterEdits later).matrix.row row).inner x
        bounds.Contains (rightHandSide - value) ↔ relation.Allows rightHandSide range value
  := by
  obtain ⟨relation, hrelation, hset⟩ := setRowRange?_eq_ok h
  have hedited : model.Edited (.rowRange row range) edited := edited_of_edit? h
  obtain ⟨ends, bounds, hends, hbounds, hsome⟩ := hedited.bounds
  obtain ⟨_, hother, rfl⟩ := Option.map_eq_some_iff.mp hends
  rw [hrelation, Option.some_inj] at hother
  subst hother
  have hdata := hedited.toSameData.trans (sameData_afterEdits later edited)
  have hrow : row < model.rightHandSide.length := by
    obtain ⟨hlt, -⟩ := List.getElem?_eq_some_iff.mp hrelation
    rw [model.rightHandSide_length, ← model.relations_length]
    apply hlt
  refine ⟨Relation.range_of_ofEndpoints? hbounds, relation, model.rightHandSide[row], bounds, ?_, ?_,
    ?_, ?_⟩
  · rw [hdata.relations, hrelation]
  · unfold rightHandSide?
    rw [if_neg (Nat.succ_ne_zero row), Nat.add_sub_cancel, hdata.rightHandSide,
      List.getElem?_eq_getElem hrow]
  · rw [hlater.bounds?_eq]
    apply hsome
  · intro x
    apply Relation.contains_iff_allows hbounds

/-- Bounds stay sound under edits.  Whatever a model is made from, and whatever calls follow, all
bounds are regular and the objective dummy has none.  A call that succeeds changes the bounds of one
variable only, and one that fails changes nothing.  In exact numbers, the last range of a row holds
for all points: the slack allows the values between the right hand side and the far end of the
range. -/
theorem bounds_afterEdits (F : Type) [Scalar F] [MeasuredScalar F] :
  (∀ model : Model F, model.Made → ∀ edits : List (BoundEdit F), (∀ edit ∈ edits, edit.Proper) →
    (model.afterEdits edits).bounds? 0 = some .free
      ∧ ∀ v < (model.afterEdits edits).nrVariables,
        ∃ bounds, (model.afterEdits edits).bounds? v = some bounds ∧ bounds.Regular)
  ∧ (∀ (model : Model F) (edit : BoundEdit F), match model.edit? edit with
    | some (.ok edited) => model.afterEdit edit = edited ∧ model.Edited edit edited
    | some (.error _) | none => model.afterEdit edit = model)
  ∧ ∀ (E : Type) [ExactScalar E] (model edited : Model E) (row : ℕ) (range : Endpoint E),
    model.setRowRange? row range = some (.ok edited) →
      ∀ later : List (BoundEdit E), Leaves (row + 1) edited later →
        (range = .plusInfinity ∨ ∃ r, range = .value r ∧ 0 ≤ r)
          ∧ ∃ relation rightHandSide bounds,
            (edited.afterEdits later).relations[row]? = some relation
            ∧ (edited.afterEdits later).rightHandSide? (row + 1) = some rightHandSide
            ∧ (edited.afterEdits later).bounds? (row + 1) = some bounds
            ∧ ∀ x : DenseVector E,
              let value := ((edited.afterEdits later).matrix.row row).inner x
              bounds.Contains (rightHandSide - value) ↔ relation.Allows rightHandSide range value
  := by
  refine ⟨?_, ?_, ?_⟩
  · intro model hmade edits hproper
    exact ⟨rfl, hmade.regularBounds.afterEdits hproper⟩
  · intro model edit
    split
    · rename_i edited hedited
      refine ⟨?_, edited_of_edit? hedited⟩
      unfold afterEdit
      rw [hedited]
    · rename_i e hfailed
      unfold afterEdit
      rw [hfailed]
    · rename_i hfailed
      unfold afterEdit
      rw [hfailed]
  · intro E _ model edited row range h later hlater
    apply exists_allows h hlater

/-- The row `3 x = 6`. -/
def exactlySix : Model ℚ where
  matrix := ⟨[[(0, 3)]], 1, by decide +kernel⟩
  cost := [1]
  rightHandSide := [6]
  relations := [.equal]
  goal := .minimize
  bounds := [Relation.equal.slackBounds, .atLeast 0]
  cost_length := rfl
  rightHandSide_length := rfl
  relations_length := rfl
  bounds_length := rfl

/-- In doubles, the row has regular bounds after an edit with an undefined end and one of its range.
In exact numbers, a range of two and an edit of the variable that comes later leave its left hand
side between four and six. -/
theorem bounds_afterEdits_exactlySix :
  (∃ model : Model Float,
    Model.nonnegative ⟨[[(0, 3)]], 1, by decide +kernel⟩ [1] [6] [.equal] .minimize = .ok model
      ∧ ∃ bounds, (model.afterEdits
          [.bounds 1 (.of (0 / 0)) (.of 1), .rowRange 0 (.of 2)]).bounds? 1 = some bounds
        ∧ bounds.Regular)
  ∧ ∃ edited bounds, exactlySix.setRowRange? 0 (.value 2) = some (.ok edited)
    ∧ (edited.afterEdits [.bounds 2 (.value 0) (.value 1)]).bounds? 1 = some bounds
    ∧ ∀ x : ℚ, bounds.Contains (6 - 3 * x) ↔ 4 ≤ 3 * x ∧ 3 * x ≤ 6
  := by
  constructor
  · obtain ⟨hregular, -⟩ := bounds_afterEdits Float
    have hmade : Model.nonnegative (⟨[[(0, 3)]], 1, by decide +kernel⟩ : ColumnMatrix Float) [1] [6]
        [.equal] .minimize = .ok _ := rfl
    refine ⟨_, hmade, (hregular _ (.nonnegative hmade) _ ?_).2 1 (by decide)⟩
    intro edit hedit
    rcases List.mem_cons.mp hedit with rfl | hedit
    · exact ⟨Endpoint.proper_of _, Endpoint.proper_of _⟩
    · rw [List.mem_singleton.mp hedit]
      apply Endpoint.proper_of
  · obtain ⟨-, -, hranges⟩ := bounds_afterEdits ℚ
    have hleaves {edited : Model ℚ} :
        Leaves (0 + 1) edited [.bounds 2 (.value 0) (.value 1)] :=
      ⟨fun h => absurd h (by decide), trivial⟩
    obtain ⟨-, relation, rightHandSide, bounds, hrelation, hright, hbounds, hallows⟩ :=
      hranges ℚ exactlySix _ 0 (.value 2) rfl _ hleaves
    refine ⟨_, bounds, rfl, hbounds, ?_⟩
    intro x
    cases hrelation
    cases hright
    have hvalue : (exactlySix.matrix.row 0).inner [x] = 3 * x := by
      simp [exactlySix, ColumnMatrix.row, DenseVector.inner, SparseVector.valueAt?]
    have hrange : Relation.equal.Allows 6 (.value 2) (3 * x) ↔ 4 ≤ 3 * x ∧ 3 * x ≤ 6 := by
      constructor
      · rintro ⟨hlow, hhigh⟩
        exact ⟨by linarith [hlow 2 rfl], hhigh⟩
      · rintro ⟨hlow, hhigh⟩
        refine ⟨?_, hhigh⟩
        rintro _ ⟨⟩
        linarith
    rw [← hrange, ← hvalue]
    apply hallows [x]

end Model

end RevisedSimplex
