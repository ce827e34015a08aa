import RevisedSimplex.Proofs.EliminationHistories
import RevisedSimplex.Proofs.PlacementTurns
import RevisedSimplex.Proofs.ProductFormSteps

/-!
# Counts through a factorization

A factorization goes from one placement to the next, first by the elements of the queues and then by
the candidates that are left; `Proceeds` is one turn, and `Visited` are the placements that turns
lead to.  Each turn makes at most one call to the elimination, and `Calls` says which.

Every call gives an unassigned candidate a free row, or drops an unassigned one.  So it keeps the
counts exact and never lowers one below zero, at every placement that is visited and whatever the
numbers and the tolerances are.  The queues run empty, since each turn takes an element from them
and leaves less work, and the singletons are settled then.
-/

namespace RevisedSimplex

variable {F : Type} [Scalar F]

namespace Placement

variable {model : Model F} {indices : List ℕ} {context : Context F} {tolerance : F}
  {start placement after committed : Placement F} {k row : ℕ} {queues later : SingletonQueues}

/-! ### Turns -/

/-- What is before a placement. -/
inductive Agenda where
  /-- Rows and candidates that are to be looked at. -/
  | queues (queues : SingletonQueues)
  /-- Candidates that are to be transformed. -/
  | leftovers (remaining : List ℕ)

/-- A turn of a factorization, with the agenda before and after it. -/
inductive Proceeds (context : Context F) (placement : Placement F) :
    Agenda → Placement F → Agenda → Prop
  | row {row : ℕ} {rows columns : List ℕ} {after : Placement F} {later : SingletonQueues} :
      takeRow? context.tolerances.factorizationPivot row placement ⟨rows, columns⟩
        = some (after, later) →
      Proceeds context placement (.queues ⟨row :: rows, columns⟩) after (.queues later)
  | column {k : ℕ} {columns : List ℕ} {after : Placement F} {later : SingletonQueues} :
      takeColumn? context.tolerances.factorizationPivot k placement ⟨[], columns⟩
        = some (after, later) →
      Proceeds context placement (.queues ⟨[], k :: columns⟩) after (.queues later)
  | settled :
      Proceeds context placement (.queues ⟨[], []⟩) placement (.leftovers placement.leftovers)
  | leftover {k : ℕ} {rest : List ℕ} {after : Placement F} :
      placement.placeTransformed? context (next placement.elimination k rest) = some after →
      Proceeds context placement (.leftovers (k :: rest)) after
        (.leftovers ((k :: rest).erase (next placement.elimination k rest)))

/-- The placements that a factorization comes to from its start, with the number of elements that
it has taken from the queues on the way. -/
inductive Visited (context : Context F) (start : Placement F) : ℕ → Placement F → Agenda → Prop
  | start :
      Visited context start 0 start
        (.queues ⟨start.elimination.singletonRows, start.elimination.singletonColumns⟩)
  | pop {pops : ℕ} {placement after : Placement F} {queues later : SingletonQueues} :
      Visited context start pops placement (.queues queues) →
      Proceeds context placement (.queues queues) after (.queues later) →
      Visited context start (pops + 1) after (.queues later)
  | turn {pops : ℕ} {placement after : Placement F} {agenda : Agenda} {remaining : List ℕ} :
      Visited context start pops placement agenda →
      Proceeds context placement agenda after (.leftovers remaining) →
      Visited context start pops after (.leftovers remaining)

/-- The change that the next turn asks of the elimination, if it asks for one. -/
inductive Calls (context : Context F) (placement : Placement F) :
    Agenda → Elimination.Change → Prop
  | row {k row : ℕ} {rows columns : List ℕ} :
      placement.elimination.columnFor? row = some k →
      placement.elimination.isAcceptable context.tolerances.factorizationPivot k row = true →
      Calls context placement (.queues ⟨row :: rows, columns⟩) (.assign k row)
  | column {k row : ℕ} {columns : List ℕ} :
      placement.elimination.rowFor? k = some row →
      placement.elimination.isAcceptable context.tolerances.factorizationPivot k row = true →
      Calls context placement (.queues ⟨[], k :: columns⟩) (.assign k row)
  | pivot {k v row : ℕ} {rest : List ℕ} {column : DenseVector F} :
      placement.Solves context (next placement.elimination k rest) v column →
      pivotRow? context placement.elimination column = some row →
      Calls context placement (.leftovers (k :: rest))
        (.assign (next placement.elimination k rest) row)
  | reject {k v : ℕ} {rest : List ℕ} {column : DenseVector F} :
      placement.Solves context (next placement.elimination k rest) v column →
      pivotRow? context placement.elimination column = none →
      Calls context placement (.leftovers (k :: rest))
        (.drop (next placement.elimination k rest))

/-! ### Calls -/

theorem elimination_of_commitRaw? (h : placement.commitRaw? k row = some committed) :
  committed.elimination = placement.elimination
  := by
  obtain ⟨_, _, -, -, hcommit⟩ := commitRaw?_spec h
  obtain ⟨inverse, -, rfl⟩ := commit?_spec hcommit
  rfl

/-- A candidate that is placed has been assigned. -/
theorem after?_of_place? {rows columns : List ℕ}
    (h : placement.place? k row = some (after, rows, columns)) :
  (Elimination.Change.assign k row).after? placement.elimination = some after.elimination
  := Option.map_eq_some_iff.mpr ⟨_, assign?_of_place? h, rfl⟩

/-- A turn does nothing to the elimination but what it calls for. -/
theorem Proceeds.calls {agenda next : Agenda} (h : Proceeds context placement agenda after next) :
  after.elimination = placement.elimination
    ∨ ∃ change, Calls context placement agenda change
      ∧ change.after? placement.elimination = some after.elimination
  := by
  cases h with
  | row htake =>
      rcases takeRow?_spec htake with ⟨rfl, -⟩
        | ⟨k, committed, _, _, hcolumnFor, hacceptable, hcommit, hplace, -⟩
      · apply Or.inl rfl
      · have hcall := after?_of_place? hplace
        rw [elimination_of_commitRaw? hcommit] at hcall
        exact Or.inr ⟨_, .row hcolumnFor hacceptable, hcall⟩
  | column htake =>
      rcases takeColumn?_spec htake with ⟨rfl, -⟩
        | ⟨row, placed, _, _, hrowFor, hacceptable, hplace, rfl, -⟩
      · apply Or.inl rfl
      · have hcall := after?_of_place? hplace
        exact Or.inr ⟨_, .column hrowFor hacceptable, hcall⟩
  | settled => apply Or.inl rfl
  | leftover hplace =>
      obtain ⟨candidate, raw, solved, hcandidate, hraw, hsolved, hcases⟩ :=
        placeTransformed?_spec hplace
      rcases hcases with ⟨row, column, committed, _, _, hrow, -, hcommit, hplace⟩
        | ⟨hnone, elimination, hdrop, rfl⟩
      · have hcall := after?_of_place? hplace
        obtain ⟨inverse, -, rfl⟩ := commit?_spec hcommit
        exact Or.inr ⟨_, .pivot ⟨candidate, raw, solved, hcandidate, rfl, hraw, hsolved, rfl⟩ hrow,
          hcall⟩
      · exact Or.inr ⟨_, .reject ⟨candidate, raw, solved, hcandidate, rfl, hraw, hsolved, rfl⟩ hnone,
          hdrop⟩

/-! ### What turns keep -/

/-- What is known of a placement with an agenda.  The elements that have been taken from the queues
and the work that is left stay within a bound. -/
def Agenda.Known (context : Context F) (model : Model F) (indices : List ℕ) (bound pops : ℕ)
    (placement : Placement F) : Agenda → Prop
  | .queues queues =>
      placement.Ready model indices ∧ placement.Watches context.tolerances.factorizationPivot queues
        ∧ pops + placement.elimination.work queues ≤ bound
  | .leftovers remaining => placement.Lists remaining

theorem Ready.takeRow? (h : placement.Ready model indices)
    (htake : takeRow? tolerance row placement queues = some (after, later)) :
  after.Ready model indices
  := of_exists_later (h.exists_takeRow? tolerance row queues) htake

theorem Ready.takeColumn? (h : placement.Ready model indices)
    (htake : takeColumn? tolerance k placement queues = some (after, later)) :
  after.Ready model indices
  := of_exists_later (h.exists_takeColumn? tolerance k queues) htake

/-- What is known after an element has been taken from the queues. -/
theorem Agenda.Known.pop {bound pops : ℕ}
    (h : (Agenda.queues queues).Known context model indices bound pops placement)
    (hturn : Proceeds context placement (.queues queues) after (.queues later)) :
  (Agenda.queues later).Known context model indices bound (pops + 1) after
  := by
  obtain ⟨hready, hwatches, hbound⟩ := h
  cases hturn with
  | row htake =>
      obtain ⟨hkept, hless⟩ := hwatches.takeRow? htake
      exact ⟨hready.takeRow? htake, hkept, by omega⟩
  | column htake =>
      obtain ⟨hkept, hless⟩ := hwatches.takeColumn? htake
      exact ⟨hready.takeColumn? htake, hkept, by omega⟩

/-- What is known once the queues are empty, and after a candidate has been transformed. -/
theorem Agenda.Known.turn {bound pops : ℕ} {agenda : Agenda} {remaining : List ℕ}
    (h : agenda.Known context model indices bound pops placement)
    (hturn : Proceeds context placement agenda after (.leftovers remaining)) :
  (Agenda.leftovers remaining).Known context model indices bound pops after
  := by
  cases hturn with
  | settled => apply h.1.placed.lists
  | leftover hplace => apply Lists.placeTransformed? h hplace

/-- Every turn keeps the accounts. -/
theorem Accounted.proceeds {bound pops : ℕ} {agenda next : Agenda}
    (h : placement.Accounted model indices)
    (hknown : agenda.Known context model indices bound pops placement)
    (hturn : Proceeds context placement agenda after next) :
  after.Accounted model indices
  := by
  cases hturn with
  | row htake => apply h.takeRow? htake
  | column htake => apply h.takeColumn? htake
  | settled => apply h
  | leftover hplace =>
      apply h.placeTransformed? _ hplace
      apply (Lists.mem_iff hknown _).mp (next_mem _ _ _)

/-- What is known of the placements that are visited, by induction on the turns. -/
theorem Visited.known {bound pops : ℕ} {agenda : Agenda}
    (h : Visited context start pops placement agenda) (haccounted : start.Accounted model indices)
    (hknown : (Agenda.queues ⟨start.elimination.singletonRows,
      start.elimination.singletonColumns⟩).Known context model indices bound 0 start) :
  placement.Accounted model indices ∧ agenda.Known context model indices bound pops placement
  := by
  induction h with
  | start => exact ⟨haccounted, hknown⟩
  | pop _ hturn ih => exact ⟨ih.1.proceeds ih.2 hturn, ih.2.pop hturn⟩
  | turn _ hturn ih => exact ⟨ih.1.proceeds ih.2 hturn, ih.2.turn hturn⟩

/-- Only changes that may be asked for are asked for. -/
theorem Calls.allowed {bound pops : ℕ} {agenda : Agenda} {change : Elimination.Change}
    (h : Calls context placement agenda change) (hcounted : placement.elimination.Counted)
    (hknown : agenda.Known context model indices bound pops placement) :
  change.Allowed placement.elimination
  := by
  cases h with
  | row hcolumnFor _ =>
      obtain ⟨hrow, hk, -⟩ := hcounted.columnFor?_spec hcolumnFor
      exact ⟨hk, hrow⟩
  | column hrowFor _ =>
      obtain ⟨hk, hrow, -⟩ := hcounted.rowFor?_spec hrowFor
      exact ⟨hk, hrow⟩
  | pivot _ hpivot =>
      refine ⟨?_, (admits_of_pivotRow? hpivot).1⟩
      apply (Lists.mem_iff hknown _).mp (next_mem _ _ _)
  | reject _ _ => apply (Lists.mem_iff hknown _).mp (next_mem _ _ _)

/-! ### Phases -/

/-- The singleton phase goes through turns until the queues are empty, when it has a turn for each
piece of work. -/
theorem Visited.exists_settled :
    ∀ {fuel pops : ℕ} {placement : Placement F} {queues : SingletonQueues},
      Visited context start pops placement (.queues queues) → placement.Ready model indices →
      placement.Watches context.tolerances.factorizationPivot queues →
      placement.elimination.work queues ≤ fuel →
      ∃ pops singles,
        takeSingletons? context.tolerances.factorizationPivot fuel placement queues = some singles
          ∧ Visited context start pops singles (.queues ⟨[], []⟩)
  | fuel, pops, placement, ⟨[], []⟩, h, _, _, _ => by
      refine ⟨pops, placement, ?_, h⟩
      cases fuel <;> rfl
  | 0, _, _, ⟨_ :: _, _⟩, _, _, _, hwork => by
      simp [Elimination.work, SingletonQueues.length] at hwork
  | 0, _, _, ⟨[], _ :: _⟩, _, _, _, hwork => by
      simp [Elimination.work, SingletonQueues.length] at hwork
  | fuel + 1, _, placement, ⟨row :: rows, columns⟩, h, hready, hwatches, hwork => by
      obtain ⟨after, later, htake, hready⟩ := hready.exists_takeRow? _ row ⟨rows, columns⟩
      obtain ⟨hwatches, hless⟩ := hwatches.takeRow? htake
      rw [takeSingletons?, htake]
      apply exists_settled (h.pop (.row htake)) hready hwatches (by omega)
  | fuel + 1, _, placement, ⟨[], k :: columns⟩, h, hready, hwatches, hwork => by
      obtain ⟨after, later, htake, hready⟩ := hready.exists_takeColumn? _ k ⟨[], columns⟩
      obtain ⟨hwatches, hless⟩ := hwatches.takeColumn? htake
      rw [takeSingletons?, htake]
      apply exists_settled (h.pop (.column htake)) hready hwatches (by omega)

/-- The last phase goes through turns until no candidate is left. -/
theorem Visited.placeRest? :
    ∀ {count pops : ℕ} {remaining : List ℕ} {placement last : Placement F},
      Visited context start pops placement (.leftovers remaining) → remaining.length = count →
      Placement.placeRest? context count remaining placement = some last →
      Visited context start pops last (.leftovers [])
  | 0, _, remaining, _, _, h, hlength, hrest => by
      rw [List.length_eq_zero_iff] at hlength
      subst hlength
      cases hrest
      apply h
  | count + 1, _, k :: rest, placement, last, h, hlength, hrest => by
      rw [Placement.placeRest?] at hrest
      obtain ⟨after, hafter, hrest⟩ := Option.bind_eq_some_iff.mp hrest
      apply (h.turn (.leftover hafter)).placeRest? _ hrest
      rw [List.length_erase_of_mem (next_mem _ _ _), hlength]
      rfl

/-- What holds of the counts through a factorization. -/
structure CountsThroughout (context : Context F) (start : Placement F) : Prop where
  /-- The counts are exact at every placement that is visited. -/
  exactly {pops : ℕ} {placement : Placement F} {agenda : Agenda} :
    Visited context start pops placement agenda → placement.elimination.CountsExactly
  /-- What is called for there may be called for, lowers no count below zero, and leaves exact
  counts. -/
  call {pops : ℕ} {placement : Placement F} {agenda : Agenda} {change : Elimination.Change} :
    Visited context start pops placement agenda → Calls context placement agenda change →
    change.Allowed placement.elimination
      ∧ ∃ after, change.after? placement.elimination = some after ∧ after.CountsExactly
  /-- A turn does nothing else to the elimination. -/
  proceed {pops : ℕ} {placement after : Placement F} {agenda next : Agenda} :
    Visited context start pops placement agenda → Proceeds context placement agenda after next →
    after.elimination = placement.elimination
      ∨ ∃ change, Calls context placement agenda change
        ∧ change.after? placement.elimination = some after.elimination
  /-- However long it takes, only so many elements are taken from the queues. -/
  bounded {pops : ℕ} {placement : Placement F} {queues : SingletonQueues} :
    Visited context start pops placement (.queues queues) →
    pops + queues.length ≤ (start.elimination.candidates.length + 1)
      * (start.elimination.free.length + start.elimination.candidates.length)
  /-- The queues run empty, and leave what the singleton phase leaves. -/
  ends : ∃ pops singles, Visited context start pops singles (.queues ⟨[], []⟩)
    ∧ start.placeSingletons? context.tolerances.factorizationPivot = some singles
  /-- Whenever they are empty, no singleton reaches the tolerance. -/
  settled {pops : ℕ} {placement : Placement F} :
    Visited context start pops placement (.queues ⟨[], []⟩) →
    placement.elimination.NoneReaches context.tolerances.factorizationPivot

/-- The counts are kept exact from a start on that has its accounts. -/
theorem Ready.countsThroughout (hready : start.Ready model indices)
    (haccounted : start.Accounted model indices) :
  start.CountsThroughout context
  := by
  have hcounted := hready.placed.counted
  have hwatches : start.Watches context.tolerances.factorizationPivot
      ⟨start.elimination.singletonRows, start.elimination.singletonColumns⟩ :=
    ⟨hcounted, start.elimination.fits_singletons, hcounted.watched hready.placed.isFree_zero _⟩
  have hbound := hcounted.work_singletons_le
  have hstart : (Agenda.queues ⟨start.elimination.singletonRows,
      start.elimination.singletonColumns⟩).Known context model indices _ 0 start :=
    ⟨hready, hwatches, (Nat.zero_add _).trans_le hbound⟩
  constructor
  case exactly =>
    intro pops placement agenda hvisited
    apply (hvisited.known haccounted hstart).1.placed.counted.countsExactly
  case call =>
    intro pops placement agenda change hvisited hcalls
    obtain ⟨haccounted, hknown⟩ := hvisited.known haccounted hstart
    have hallowed := hcalls.allowed haccounted.placed.counted hknown
    obtain ⟨after, hafter, hcounted⟩ := haccounted.placed.counted.exists_change hallowed
    exact ⟨hallowed, after, hafter, hcounted.countsExactly⟩
  case proceed =>
    intro pops placement after agenda next _ hturn
    apply hturn.calls
  case bounded =>
    intro pops placement queues hvisited
    obtain ⟨-, -, hwork⟩ := (hvisited.known haccounted hstart).2
    apply le_trans _ hwork
    apply Nat.add_le_add_left
    apply Nat.le_add_right
  case ends =>
    obtain ⟨pops, singles, hsingles, hvisited⟩ :=
      Visited.start.exists_settled hready hwatches hbound
    exact ⟨pops, singles, hvisited, hsingles⟩
  case settled =>
    intro pops placement hvisited
    obtain ⟨-, hwatches, -⟩ := (hvisited.known haccounted hstart).2
    apply hwatches.counted.noneReaches hwatches.watched.isSettled

theorem elimination_of_commitDeferred? (h : placement.commitDeferred? = some committed) :
  committed.elimination = placement.elimination
  := by
  apply commitDeferred?_induction (motive := fun passed =>
    passed.elimination = placement.elimination) _ rfl h
  intro passed next k row _ hpassed hnext
  rw [elimination_of_commitRaw? hnext, hpassed]

end Placement

/-! ### Factorizing -/

/-- Two columns that share a row, where the second one has its only entry, and a faint one. -/
def Model.faint : Model Float where
  matrix := ⟨[[(0, 4), (1, 1)], [(1, 1e-12)]], 2, by decide +kernel⟩
  cost := [0, 0]
  rightHandSide := [1, 1]
  relations := [.equal, .less]
  goal := .minimize
  bounds := [Relation.equal.slackBounds, .atLeast 0, .atLeast 0, .atLeast 0]
  cost_length := rfl
  rightHandSide_length := rfl
  relations_length := rfl
  bounds_length := rfl

namespace ProductForm

variable {context : Context F} {model : Model F} {indices : List ℕ}

/-- The counts of an elimination through a factorization, for any numbers, model and settings.

Let no slack be listed twice.  From the start on the counts are exact, every change that is asked
for can be made, the queues of singletons run empty after so many turns at most, and no singleton
is left then whose entry reaches the tolerance.  What the factorization returns is what it has come
to by such turns, with the commits that were put off. -/
theorem factorize?_counts_exactly
    (hnodup : (indices.filter fun v => v ≤ model.nrRows).Nodup)
    (hindices : ∀ v ∈ indices, 0 < v ∧ v < model.nrVariables) :
  ∃ start, Placement.start? model indices = some start ∧ start.CountsThroughout context
    ∧ ∀ (form : ProductForm F) (outcome : Outcome (ProductForm F) Factorization),
      form.factorize? context model indices = some outcome →
      ∃ pops rest last, Placement.Visited context start pops rest (.leftovers [])
        ∧ rest.commitDeferred? = some last ∧ last.elimination = rest.elimination
        ∧ outcome.result.positions = last.filledPositions
        ∧ outcome.result.singular = last.singular
  := by
  obtain ⟨start, hstart, hready⟩ := Placement.exists_start?_ready hnodup hindices
  obtain ⟨other, hother, haccounted, -⟩ := Placement.exists_start?_accounted hnodup hindices
  rw [hstart, Option.some_inj] at hother
  subst hother
  have hcounts : start.CountsThroughout context := hready.countsThroughout haccounted
  refine ⟨start, hstart, hcounts, ?_⟩
  intro form outcome hfactorize
  obtain ⟨-, placed, hplaced, hresult, -⟩ := factorize?_spec hfactorize
  obtain ⟨other, singles, rest, last, file, hother, hsingles, hrest, hlast, -, -, hpositions,
    hsingular⟩ := PlacedBasis.of?_spec hplaced
  rw [hstart, Option.some_inj] at hother
  subst hother
  obtain ⟨pops, others, hvisited, hothers⟩ := hcounts.ends
  rw [hsingles, Option.some_inj] at hothers
  subst hothers
  refine ⟨pops, rest, last, (hvisited.turn .settled).placeRest? rfl hrest, hlast,
    Placement.elimination_of_commitDeferred? hlast, ?_, ?_⟩
  · rw [hresult, hpositions]
  · rw [hresult, hsingular]

/-- A row singleton is placed, after which the faint entry is alone in its row and refused, as a
row and as a candidate, and its column is dropped. -/
theorem factorize?_counts_exactly_faint :
  ([3, 4].filter fun v => v ≤ Model.faint.nrRows).Nodup
    ∧ (∀ v ∈ [3, 4], 0 < v ∧ v < Model.faint.nrVariables)
    ∧ ∃ start pops singles, Placement.start? Model.faint [3, 4] = some start
      ∧ start.CountsThroughout Context.doubles
      ∧ start.elimination.rowCount = [0, 1, 2] ∧ start.elimination.columnCount = [2, 1]
      ∧ Placement.Visited Context.doubles start pops singles (.queues ⟨[], []⟩)
      ∧ singles.elimination.rowCount = [0, 0, 1] ∧ singles.elimination.columnCount = [2, 1]
      ∧ singles.elimination.NoneReaches Context.doubles.tolerances.factorizationPivot
      ∧ ∃ outcome, (identity 2).factorize? Context.doubles Model.faint [3, 4] = some outcome
        ∧ ∃ pops rest last, Placement.Visited Context.doubles start pops rest (.leftovers [])
          ∧ rest.commitDeferred? = some last ∧ last.singular = [4]
  := by
  have hnodup : ([3, 4].filter fun v => v ≤ Model.faint.nrRows).Nodup := by decide
  have hindices : ∀ v ∈ [3, 4], 0 < v ∧ v < Model.faint.nrVariables := by decide
  obtain ⟨start, hstart, hcounts, hfactorizes⟩ :
      ∃ start, Placement.start? Model.faint [3, 4] = some start
        ∧ start.CountsThroughout Context.doubles ∧ _ :=
    factorize?_counts_exactly hnodup hindices
  obtain ⟨pops, singles, hvisited, hsingles⟩ := hcounts.ends
  have hcomputed : ((Placement.start? Model.faint [3, 4]).bind fun start =>
      (start.placeSingletons? Context.doubles.tolerances.factorizationPivot).map fun singles =>
        ((start.elimination.rowCount, start.elimination.columnCount),
          singles.elimination.rowCount, singles.elimination.columnCount))
      = some (([0, 1, 2], [2, 1]), [0, 0, 1], [2, 1]) := by
    decide +kernel
  rw [hstart, Option.bind_some, hsingles, Option.map_some, Option.some_inj, Prod.mk_inj,
    Prod.mk_inj, Prod.mk_inj] at hcomputed
  obtain ⟨⟨hrows, hcolumns⟩, hrowsLeft, hcolumnsLeft⟩ := hcomputed
  have hresult : ((identity 2).factorize? Context.doubles Model.faint [3, 4]).map
      (fun outcome => outcome.result.singular) = some [4] := by
    decide +kernel
  obtain ⟨outcome, houtcome, hsingular⟩ := Option.map_eq_some_iff.mp hresult
  obtain ⟨turns, rest, last, hrest, hlast, -, -, hlisted⟩ := hfactorizes _ outcome houtcome
  exact ⟨hnodup, hindices, start, pops, singles, hstart, hcounts, hrows, hcolumns, hvisited,
    hrowsLeft, hcolumnsLeft, hcounts.settled hvisited, outcome, houtcome, turns, rest, last, hrest,
    hlast, hlisted.symm.trans hsingular⟩

end ProductForm

end RevisedSimplex
