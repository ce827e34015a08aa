import RevisedSimplex.Proofs.PlacementSpan
import RevisedSimplex.Proofs.PlacementTurns
import RevisedSimplex.Proofs.RoundedScalar

/-!
# Magnitudes of pivots

A factorization compares three kinds of entries with its pivot tolerance: that of a row singleton,
that of a column singleton, and the largest entry of a transformed column in the free rows.  The
first two are the pivots themselves.  The third one is the pivot only under the rule of the largest
magnitude.  The sparsest row has no more than a `share` of it, and so the pivot of a transformed
column may be smaller than the tolerance by that factor.

Whether a transformed column gets a row does not depend on the rule: it is singular when no entry
in a free row reaches the tolerance.
-/

namespace RevisedSimplex

variable {F : Type} [ExactScalar F]

/-! ### Shares -/

/-- The least fraction of the largest magnitude that a row may be chosen with. -/
def RowSelection.share : RowSelection F → F
  | largestMagnitude => 1
  | markowitz threshold => threshold

theorem RowSelection.Proper.share_pos {selection : RowSelection F} (h : selection.Proper) :
  0 < selection.share
  := by
  cases selection with
  | largestMagnitude => apply zero_lt_one
  | markowitz threshold => apply h.1

theorem RowSelection.Admits.share_mul_le {selection : RowSelection F} {best magnitude : F}
    (h : selection.Admits best magnitude) :
  selection.share * best ≤ magnitude
  := by
  cases selection with
  | largestMagnitude =>
      unfold share
      rw [one_mul, show magnitude = best from h]
  | markowitz threshold => apply h

/-- The column that is inverted to the given one has a pivot of at least some magnitude. -/
def EtaColumn.PivotedFrom (bound : F) (column : EtaColumn F) : Prop :=
  ∃ staged : EtaColumn F, staged.invert? = some column ∧ bound ≤ |staged.pivot|

/-- The larger the pivot was, the smaller is its inverse. -/
theorem EtaColumn.PivotedFrom.mul_abs_le {bound : F} {column : EtaColumn F}
    (h : column.PivotedFrom bound) :
  bound * |column.pivot| ≤ 1
  := by
  obtain ⟨staged, hinverse, hbound⟩ := h
  have hne : staged.pivot ≠ 0 := by
    have hpivot := pivot_of_invert? hinverse
    rintro hzero
    rw [hzero] at hpivot
    simp at hpivot
  have hpivot : column.pivot = 1 / staged.pivot := by
    unfold invert? at hinverse
    split at hinverse
    · cases hinverse
    · cases hinverse
      rfl
  rw [hpivot, abs_div, abs_one]
  apply (mul_le_mul_of_nonneg_right hbound (by positivity)).trans_eq
  rw [mul_one_div_cancel (abs_ne_zero.mpr hne)]

/-- An entry of the column in a free row reaches a magnitude. -/
def Elimination.HasPivot (state : Elimination F) (tolerance : F) (column : DenseVector F) : Prop :=
  ∃ row value, row ≠ 0 ∧ state.isFree row = true ∧ column[row]? = some value
    ∧ tolerance ≤ |value|

namespace Placement

variable {placement result committed : Placement F} {k row : ℕ} {tolerance bound : F}
  {context : Context F} {queues later : SingletonQueues}

/-! ### Singletons -/

/-- What is committed as it stands has the pivot that was found acceptable. -/
theorem pivotedFrom_of_commitRaw?
    (hacceptable : placement.elimination.isAcceptable tolerance k row = true)
    (h : placement.commitRaw? k row = some committed) :
  ∃ inverse : EtaColumn F, inverse.PivotedFrom tolerance
    ∧ committed = { placement with file := placement.file.append inverse }
  := by
  obtain ⟨candidate, column, hcandidate, hcolumn, hcommit⟩ := commitRaw?_spec h
  obtain ⟨inverse, hinverse, rfl⟩ := commit?_spec hcommit
  obtain ⟨-, -, hpivot, -⟩ := EtaColumn.ofSparse?_spec hcolumn
  refine ⟨inverse, ⟨column, hinverse, ?_⟩, rfl⟩
  unfold Elimination.isAcceptable at hacceptable
  rw [hcandidate, Option.bind_some] at hacceptable
  cases hvalue : candidate.entries.valueAt? row with
  | none =>
      rw [hvalue] at hacceptable
      cases hacceptable
  | some value =>
      rw [hvalue] at hacceptable hpivot
      rw [hpivot, Option.getD_some, ← ExactScalar.magnitude_eq_abs]
      apply of_decide_eq_true hacceptable

/-- Whether an entry is acceptable is read off the candidates. -/
theorem isAcceptable_congr {state other : Elimination F}
    (h : other.candidates = state.candidates) (k row : ℕ) :
  other.isAcceptable tolerance k row = state.isAcceptable tolerance k row
  := by
  unfold Elimination.isAcceptable
  rw [h]

/-- Every column so far has a pivot that reaches the tolerance, and so have those that wait for
their commit. -/
structure Accepted (tolerance : F) (placement : Placement F) : Prop where
  columns : ∀ column ∈ placement.file.columns, column.PivotedFrom tolerance
  deferred : ∀ pair ∈ placement.deferred,
    placement.elimination.isAcceptable tolerance pair.1 pair.2 = true
  singular : placement.singular = []

theorem Accepted.takeRow? (h : placement.Accepted tolerance)
    (htake : takeRow? tolerance row placement queues = some (result, later)) :
  result.Accepted tolerance
  := by
  rcases takeRow?_spec htake with ⟨rfl, -⟩
    | ⟨k, committed, rows, columns, -, hacceptable, hcommit, hplace, -⟩
  · apply h
  · obtain ⟨inverse, hinverse, rfl⟩ := pivotedFrom_of_commitRaw? hacceptable hcommit
    obtain ⟨candidate, elimination, -, -, -, hcandidates, -, -, rfl⟩ := place?_spec hplace
    constructor
    case columns =>
      intro column hcolumn
      change column ∈ (placement.file.append inverse).columns at hcolumn
      rw [EtaFile.columns_append] at hcolumn
      rcases List.mem_append.mp hcolumn with hold | hnew
      · apply h.columns column hold
      · rw [List.mem_singleton.mp hnew]
        apply hinverse
    case deferred =>
      intro pair hpair
      rw [isAcceptable_congr hcandidates]
      apply h.deferred pair hpair
    case singular => apply h.singular

theorem Accepted.takeColumn? (h : placement.Accepted tolerance)
    (htake : takeColumn? tolerance k placement queues = some (result, later)) :
  result.Accepted tolerance
  := by
  rcases takeColumn?_spec htake with ⟨rfl, -⟩
    | ⟨row, placed, rows, columns, -, hacceptable, hplace, rfl, -⟩
  · apply h
  · obtain ⟨candidate, elimination, -, -, -, hcandidates, -, -, rfl⟩ := place?_spec hplace
    constructor
    case columns => apply h.columns
    case deferred =>
      intro pair hpair
      rw [isAcceptable_congr hcandidates]
      rcases List.mem_cons.mp hpair with rfl | hpair
      · apply hacceptable
      · apply h.deferred pair hpair
    case singular => apply h.singular

/-- A start has no columns yet. -/
theorem accepted_of_start? {model : Model F} {indices : List ℕ}
    (h : start? model indices = some placement) :
  placement.Accepted tolerance
  := by
  obtain ⟨positions, candidates, -, -, rfl⟩ := start?_spec h
  constructor
  case columns =>
    intro column hcolumn
    cases hcolumn
  case deferred =>
    intro pair hpair
    cases hpair
  case singular => rfl

/-- The columns that waited are committed from pivots that reach the tolerance. -/
theorem pivotedFrom_of_commitDeferred?
    (hdeferred : ∀ pair ∈ placement.deferred,
      placement.elimination.isAcceptable tolerance pair.1 pair.2 = true)
    (h : placement.commitDeferred? = some committed) :
  ∃ columns, committed.file.columns = placement.file.columns ++ columns
    ∧ ∀ column ∈ columns, column.PivotedFrom tolerance
  := by
  -- the candidates stay as they are, and with them what was found acceptable
  have hkept : committed.elimination = placement.elimination
      ∧ ∃ columns, committed.file.columns = placement.file.columns ++ columns
        ∧ ∀ column ∈ columns, column.PivotedFrom tolerance := by
    apply commitDeferred?_induction _ ⟨rfl, [], (List.append_nil _).symm, by simp⟩ h
    rintro passed next k row hpair ⟨hsame, columns, hcolumns, hall⟩ hnext
    have hacceptable := hdeferred (k, row) hpair
    rw [← hsame] at hacceptable
    obtain ⟨inverse, hinverse, rfl⟩ := pivotedFrom_of_commitRaw? hacceptable hnext
    refine ⟨hsame, columns ++ [inverse], ?_, ?_⟩
    · rw [EtaFile.columns_append, hcolumns, List.append_assoc]
    · intro column hcolumn
      rcases List.mem_append.mp hcolumn with hold | hnew
      · apply hall column hold
      · rw [List.mem_singleton.mp hnew]
        apply hinverse
  apply hkept.2

/-! ### Transformed columns -/

/-- A column is placed when it has an entry that reaches the tolerance, whatever the rule is that
chooses its row. -/
theorem pivotRow?_eq_none_iff (hpivot : 0 < context.tolerances.factorizationPivot)
    (hselection : context.rowSelection.Proper) {state : Elimination F} {column : DenseVector F} :
  pivotRow? context state column = none
    ↔ ¬ state.HasPivot context.tolerances.factorizationPivot column
  := by
  constructor
  · rintro hnone ⟨row, value, hrow, hfree, hvalue, hle⟩
    have hlt := abs_lt_of_pivotRow?_eq_none hpivot hselection hnone hrow hfree hvalue
    exact absurd hle (not_le.mpr hlt)
  · intro hno
    cases hchoice : pivotRow? context state column with
    | none => rfl
    | some row =>
        obtain ⟨-, _, best, -, hbest, -, i, other, hi, hfree, hother, hmagnitude⟩ :=
          admits_of_pivotRow? hchoice
        rw [hmagnitude, ExactScalar.magnitude_eq_abs] at hbest
        exact absurd ⟨i, other, hi, hfree, hother, not_lt.mp hbest⟩ hno

/-- The pivot of a column has a share of the tolerance at least. -/
theorem share_mul_le_of_pivotRow? (hselection : context.rowSelection.Proper)
    {state : Elimination F} {column : DenseVector F}
    (h : pivotRow? context state column = some row) :
  ∃ value, column[row]? = some value
    ∧ context.rowSelection.share * context.tolerances.factorizationPivot ≤ |value|
  := by
  obtain ⟨-, value, best, hvalue, hbest, hadmits, -⟩ := admits_of_pivotRow? h
  refine ⟨value, hvalue, ?_⟩
  rw [← ExactScalar.magnitude_eq_abs]
  apply le_trans _ hadmits.share_mul_le
  apply mul_le_mul_of_nonneg_left (not_lt.mp hbest) hselection.share_pos.le

/-- A turn of the last phase.  A column with an entry that reaches the tolerance is committed, from
a pivot with a share of that.  A column without one is singular. -/
structure Turn (context : Context F) (placement : Placement F) (v : ℕ) (column : DenseVector F)
    (result : Placement F) : Prop where
  placed : placement.elimination.HasPivot context.tolerances.factorizationPivot column →
    result.singular = placement.singular ∧ ∃ inverse : EtaColumn F, inverse.owner = v
      ∧ inverse.PivotedFrom
        (context.rowSelection.share * context.tolerances.factorizationPivot)
      ∧ result.file.columns = placement.file.columns ++ [inverse]
  rejected : ¬ placement.elimination.HasPivot context.tolerances.factorizationPivot column →
    result.singular = placement.singular ++ [v]
      ∧ result.file.columns = placement.file.columns
  deferred : result.deferred = placement.deferred
  candidates : result.elimination.candidates = placement.elimination.candidates

theorem turn_of_placeTransformed? (hpivot : 0 < context.tolerances.factorizationPivot)
    (hselection : context.rowSelection.Proper)
    (h : placement.placeTransformed? context k = some result) :
  ∃ v column, placement.Solves context k v column ∧ placement.Turn context v column result
  := by
  obtain ⟨candidate, raw, solved, hcandidate, hraw, hsolved, hcases⟩ := placeTransformed?_spec h
  refine ⟨candidate.owner, _, ⟨candidate, raw, solved, hcandidate, rfl, hraw, hsolved, rfl⟩, ?_⟩
  have hnone : pivotRow? context placement.elimination
      (solved.roundRelative context.tolerances.drop) = none ↔ _ :=
    pivotRow?_eq_none_iff hpivot hselection
  rcases hcases with ⟨row, eta, committed, rows, columns, hchoice, heta, hcommit, hplace⟩
    | ⟨hchoice, elimination, hdrop, rfl⟩
  · obtain ⟨inverse, hinverse, rfl⟩ := commit?_spec hcommit
    obtain ⟨_, elimination, -, -, -, hcandidates, -, -, rfl⟩ := place?_spec hplace
    obtain ⟨-, -, howner, hpivotValue⟩ := EtaColumn.ofDense?_spec heta
    obtain ⟨-, hinverseOwner, -⟩ := EtaColumn.invert?_spec hinverse
    obtain ⟨value, hvalue, hle⟩ := share_mul_le_of_pivotRow? hselection hchoice
    rw [hpivotValue, Option.some_inj] at hvalue
    rw [hchoice] at hnone
    constructor
    case placed =>
      intro _
      refine ⟨rfl, inverse, hinverseOwner.trans howner, ⟨eta, hinverse, ?_⟩, ?_⟩
      · rw [hvalue]
        apply hle
      · apply EtaFile.columns_append
    case rejected =>
      intro hno
      cases hnone.mpr hno
    case deferred => rfl
    case candidates => apply hcandidates
  · obtain ⟨hcandidates, -⟩ := Elimination.drop?_spec hdrop
    constructor
    case placed =>
      intro hhas
      exact absurd hhas (hnone.mp hchoice)
    case rejected =>
      intro _
      exact ⟨rfl, rfl⟩
    case deferred => rfl
    case candidates => apply hcandidates

/-! ### The last phase -/

/-- What the last phase adds to a placement. -/
structure Extends (bound : F) (placement later : Placement F) : Prop where
  columns : ∃ columns, later.file.columns = placement.file.columns ++ columns
    ∧ ∀ column ∈ columns, column.PivotedFrom bound
  deferred : later.deferred = placement.deferred
  candidates : later.elimination.candidates = placement.elimination.candidates

theorem Extends.refl (bound : F) (placement : Placement F) :
  placement.Extends bound placement
  := ⟨⟨[], (List.append_nil _).symm, fun _ h => by cases h⟩, rfl, rfl⟩

theorem Extends.turn {start : Placement F} {v : ℕ} {column : DenseVector F}
    (h : start.Extends (context.rowSelection.share * context.tolerances.factorizationPivot)
      placement)
    (hturn : placement.Turn context v column result) :
  start.Extends (context.rowSelection.share * context.tolerances.factorizationPivot) result
  := by
  obtain ⟨columns, hcolumns, hall⟩ := h.columns
  have hdeferred := hturn.deferred.trans h.deferred
  have hcandidates := hturn.candidates.trans h.candidates
  by_cases hhas : placement.elimination.HasPivot context.tolerances.factorizationPivot column
  · obtain ⟨-, inverse, -, hinverse, hresult⟩ := hturn.placed hhas
    refine ⟨⟨columns ++ [inverse], ?_, ?_⟩, hdeferred, hcandidates⟩
    · rw [hresult, hcolumns, List.append_assoc]
    · intro other hother
      rcases List.mem_append.mp hother with hold | hnew
      · apply hall other hold
      · rw [List.mem_singleton.mp hnew]
        apply hinverse
  · refine ⟨⟨columns, ?_, hall⟩, hdeferred, hcandidates⟩
    rw [(hturn.rejected hhas).2, hcolumns]

theorem extends_of_placeRest? (hpivot : 0 < context.tolerances.factorizationPivot)
    (hselection : context.rowSelection.Proper) {count : ℕ} {remaining : List ℕ}
    (h : placeRest? context count remaining placement = some result) :
  placement.Extends (context.rowSelection.share * context.tolerances.factorizationPivot) result
  := by
  apply placeRest?_induction _ (Extends.refl _ placement) h
  intro k passed after hpassed hafter
  obtain ⟨v, column, -, hturn⟩ := turn_of_placeTransformed? hpivot hselection hafter
  apply hpassed.turn hturn

/-- What the last phase does with the candidates that are left: one with an entry that reaches the
tolerance is committed, and exactly the others are singular. -/
theorem comesUp_of_placeRest? (hpivot : 0 < context.tolerances.factorizationPivot)
    (hselection : context.rowSelection.Proper) (hsingular : placement.singular = [])
    (h : placeRest? context placement.leftovers.length placement.leftovers placement
      = some result) :
  (∀ k ∈ placement.leftovers, ∃ v passed column, placement.ComesUp context k v passed column
      ∧ (passed.elimination.HasPivot context.tolerances.factorizationPivot column →
        ∃ eta ∈ result.file.columns, eta.owner = v)
      ∧ (¬ passed.elimination.HasPivot context.tolerances.factorizationPivot column →
        v ∈ result.singular))
    ∧ ∀ v ∈ result.singular, ∃ k ∈ placement.leftovers, ∃ passed column,
      placement.ComesUp context k v passed column
        ∧ ¬ passed.elimination.HasPivot context.tolerances.factorizationPivot column
  := by
  constructor
  · intro k hk
    obtain ⟨turns, passed, after, left, rest, hpassed, hafter, hrest⟩ :=
      exists_turn (le_refl _) h k hk
    obtain ⟨v, column, hsolves, hturn⟩ := turn_of_placeTransformed? hpivot hselection hafter
    have hextends := extends_of_placeRest? hpivot hselection hrest
    obtain ⟨columns, hcolumns, -⟩ := hextends.columns
    refine ⟨v, passed, column, ⟨⟨turns, hpassed⟩, hsolves⟩, ?_, ?_⟩
    · intro hhas
      obtain ⟨-, inverse, howner, -, hcommitted⟩ := hturn.placed hhas
      refine ⟨inverse, ?_, howner⟩
      rw [hcolumns, hcommitted]
      simp
    · intro hno
      apply singular_subset_of_placeRest? hrest
      rw [(hturn.rejected hno).1]
      apply List.mem_concat_self
  · intro v hv
    obtain ⟨k, hk, turns, passed, after, hpassed, hafter, hin, hout⟩ :=
      exists_turn_of_singular h hv (by rw [hsingular]; apply List.not_mem_nil)
    obtain ⟨u, column, hsolves, hturn⟩ := turn_of_placeTransformed? hpivot hselection hafter
    have hno : ¬ passed.elimination.HasPivot context.tolerances.factorizationPivot column := by
      intro hhas
      rw [(hturn.placed hhas).1] at hin
      apply hout hin
    rw [(hturn.rejected hno).1, List.mem_append, List.mem_singleton] at hin
    obtain rfl := hin.resolve_left hout
    exact ⟨k, hk, passed, column, ⟨⟨turns, hpassed⟩, hsolves⟩, hno⟩

end Placement

/-! ### Factorizations -/

/-- Settings by which the sparsest row needs a thirty-second of the largest magnitude. -/
def Settings.sparsest : Settings where
  tolerances := { factorizationPivot := 0.125 }
  rowSelection := .markowitz 0.03125

/-- Two columns that share a row and have a small entry in a row of their own each. -/
def Model.stars : Model ℚ where
  matrix := ⟨[[(0, 1), (1, 1 / 16)], [(0, 1), (2, 1 / 16)]], 3, by decide +kernel⟩
  cost := [0, 0]
  rightHandSide := [1, 1, 1]
  relations := List.replicate 3 .less
  goal := .minimize
  bounds := List.replicate 5 (.atLeast 0)
  cost_length := rfl
  rightHandSide_length := rfl
  relations_length := rfl
  bounds_length := rfl

namespace ProductForm

variable {form : ProductForm F} {context : Context F} {model : Model F} {indices : List ℕ}
  {outcome : Outcome (ProductForm F) Factorization}

/-- How large the pivots of a factorization are, and which columns are singular.

The pivots of the singletons reach the tolerance, and those of the columns that were transformed
have a share of it at least, which is all of it under the rule of the largest magnitude.  A
candidate that is left after the singletons comes up once.  It is committed if an entry of its
transformed column in a free row reaches the tolerance then, and singular if none does; and no
other column is singular. -/
theorem factorize?_pivots (hpivot : 0 < context.tolerances.factorizationPivot)
    (hselection : context.rowSelection.Proper)
    (h : form.factorize? context model indices = some outcome) :
  (∃ singles rest deferred, outcome.state.file.columns = singles ++ rest ++ deferred
      ∧ (∀ column ∈ singles ++ deferred,
        column.PivotedFrom context.tolerances.factorizationPivot)
      ∧ ∀ column ∈ rest, column.PivotedFrom
        (context.rowSelection.share * context.tolerances.factorizationPivot))
    ∧ (context.rowSelection.share = 1 → ∀ column ∈ outcome.state.file.columns,
      column.PivotedFrom context.tolerances.factorizationPivot)
    ∧ ∃ start singles, Placement.start? model indices = some start
      ∧ start.placeSingletons? context.tolerances.factorizationPivot = some singles
      ∧ (∀ k ∈ singles.leftovers, ∃ v passed column, singles.ComesUp context k v passed column
        ∧ (passed.elimination.HasPivot context.tolerances.factorizationPivot column →
          ∃ eta ∈ outcome.state.file.columns, eta.owner = v)
        ∧ (¬ passed.elimination.HasPivot context.tolerances.factorizationPivot column →
          v ∈ outcome.result.singular))
      ∧ ∀ v ∈ outcome.result.singular, ∃ k ∈ singles.leftovers, ∃ passed column,
        singles.ComesUp context k v passed column
          ∧ ¬ passed.elimination.HasPivot context.tolerances.factorizationPivot column
  := by
  obtain ⟨-, placed, hplaced, hresult, hstate⟩ := factorize?_spec h
  obtain ⟨start, singles, rest, last, file, hstart, hsingles, hrest, hlast, hmark, hfile, -,
    hsingular⟩ := PlacedBasis.of?_spec hplaced
  have haccepted : singles.Accepted context.tolerances.factorizationPivot :=
    Placement.takeSingletons?_induction (fun h => h.takeRow?) (fun h => h.takeColumn?)
      (Placement.accepted_of_start? hstart) hsingles
  have hextends := Placement.extends_of_placeRest? hpivot hselection hrest
  obtain ⟨restColumns, hrestColumns, hrestPivots⟩ := hextends.columns
  have hdeferred : ∀ pair ∈ rest.deferred, rest.elimination.isAcceptable
      context.tolerances.factorizationPivot pair.1 pair.2 = true := by
    rw [hextends.deferred]
    intro pair hpair
    rw [Placement.isAcceptable_congr hextends.candidates]
    apply haccepted.deferred pair hpair
  obtain ⟨deferredColumns, hlastColumns, hdeferredPivots⟩ :=
    Placement.pivotedFrom_of_commitDeferred? hdeferred hlast
  obtain ⟨-, -, hlastSingular⟩ := Placement.pivots_of_commitDeferred? hlast
  have hcolumns : outcome.state.file.columns
      = singles.file.columns ++ restColumns ++ deferredColumns := by
    rw [hstate]
    change placed.file.columns = _
    rw [hfile, (EtaFile.markFactorEnd?_spec hmark).2, EtaFile.columns_asFactor, hlastColumns,
      hrestColumns]
  have hsingles' : ∀ column ∈ singles.file.columns ++ deferredColumns,
      column.PivotedFrom context.tolerances.factorizationPivot := by
    intro column hcolumn
    rcases List.mem_append.mp hcolumn with hsingle | hdeferred
    · apply haccepted.columns column hsingle
    · apply hdeferredPivots column hdeferred
  have hcommitted : rest.file.columns ⊆ outcome.state.file.columns := by
    rw [hcolumns, hrestColumns]
    apply List.subset_append_left
  have hsame : outcome.result.singular = rest.singular := by
    rw [hresult, ← hlastSingular, ← hsingular]
  obtain ⟨hleft, hrejected⟩ :=
    Placement.comesUp_of_placeRest? hpivot hselection haccepted.singular hrest
  refine ⟨⟨_, _, _, hcolumns, hsingles', hrestPivots⟩, ?_, start, singles, hstart, hsingles, ?_, ?_⟩
  · intro hshare column hcolumn
    rw [hcolumns] at hcolumn
    rw [hshare, one_mul] at hrestPivots
    rcases List.mem_append.mp hcolumn with hfront | hdeferred
    · rcases List.mem_append.mp hfront with hsingle | hrest
      · apply haccepted.columns column hsingle
      · apply hrestPivots column hrest
    · apply hdeferredPivots column hdeferred
  · intro k hk
    obtain ⟨v, passed, column, hcomes, hhas, hno⟩ := hleft k hk
    refine ⟨v, passed, column, hcomes, ?_, ?_⟩
    · intro hpivots
      obtain ⟨eta, heta, howner⟩ := hhas hpivots
      exact ⟨eta, hcommitted heta, howner⟩
    · rw [hsame]
      apply hno
  · rw [hsame]
    apply hrejected

/-- Both columns of the sample model are committed from pivots that reach the tolerance. -/
theorem factorize?_pivots_sample :
  ∃ (context : Context ℚ) (outcome : Outcome (ProductForm ℚ) Factorization),
    0 < context.tolerances.factorizationPivot ∧ context.rowSelection.Proper
      ∧ context.rowSelection.share = 1
      ∧ (identity 2).factorize? context Model.sample [3, 4] = some outcome
      ∧ outcome.state.file.nrColumns = 2
      ∧ ∀ column ∈ outcome.state.file.columns,
        column.PivotedFrom context.tolerances.factorizationPivot
  := by
  let context : Context ℚ := { Context.sample with rowSelection := .largestMagnitude }
  have hpivot : 0 < context.tolerances.factorizationPivot :=
    Context.sample_exact.factorizationPivot
  have hfactorized : (((identity 2).factorize? { Context.sample with
      rowSelection := .largestMagnitude } Model.sample [3, 4]).map
        fun outcome => outcome.state.file.nrColumns) = some 2 := by
    decide +kernel
  obtain ⟨outcome, houtcome, hcolumns⟩ := Option.map_eq_some_iff.mp hfactorized
  have hproper : context.rowSelection.Proper := trivial
  exact ⟨context, outcome, hpivot, hproper, rfl, houtcome, hcolumns,
    (factorize?_pivots hpivot hproper houtcome).2.1 rfl⟩

/-- A pivot of a half of the tolerance is committed by accepted settings, and nothing is singular,
because the large entry of its column is not in the sparsest row. -/
theorem factorize?_pivot_below_tolerance :
  ∃ (context : Context ℚ) (outcome : Outcome (ProductForm ℚ) Factorization),
    Context.ofSettings .sparsest = .ok context
      ∧ 0 < context.tolerances.factorizationPivot ∧ context.rowSelection.Proper
      ∧ (identity 3).factorize? context Model.stars [4, 5] = some outcome
      ∧ outcome.result.positions = [0, 5, 4, 3] ∧ outcome.result.singular = []
      ∧ ∃ column ∈ outcome.state.file.columns,
        ¬ column.PivotedFrom context.tolerances.factorizationPivot
  := by
  have hfault : (Settings.sparsest.fault?).isNone = true := by decide +kernel
  have hfactorized : (((identity 3).factorize? (.convert .sparsest) Model.stars [4, 5]).map
      fun outcome => (outcome.result.positions, outcome.result.singular,
        outcome.state.file.columns.map EtaColumn.pivot)) = some ([0, 5, 4, 3], [], [16, 1]) := by
    decide +kernel
  obtain ⟨outcome, houtcome, hresult⟩ := Option.map_eq_some_iff.mp hfactorized
  simp only [Prod.mk.injEq] at hresult
  obtain ⟨hpositions, hsingular, hpivots⟩ := hresult
  have hmem : (16 : ℚ) ∈ outcome.state.file.columns.map EtaColumn.pivot := by
    rw [hpivots]
    apply List.mem_cons_self
  obtain ⟨column, hcolumn, hpivot⟩ := List.mem_map.mp hmem
  have htolerance : (Context.convert Settings.sparsest : Context ℚ).tolerances.factorizationPivot
      = 1 / 8 := by
    decide +kernel
  have hproper : (Context.convert Settings.sparsest : Context ℚ).rowSelection.Proper := by
    change (0 : ℚ) < Scalar.ofFloat 0.03125 ∧ (Scalar.ofFloat 0.03125 : ℚ) ≤ 1
    decide +kernel
  refine ⟨.convert .sparsest, outcome, ?_, ?_, hproper, houtcome, hpositions, hsingular, column,
    hcolumn, ?_⟩
  · apply Context.ofSettings_eq_convert hfault
  · rw [htolerance]
    norm_num
  · intro hpivoted
    have hle := hpivoted.mul_abs_le
    rw [htolerance, hpivot] at hle
    norm_num at hle

end ProductForm

end RevisedSimplex
