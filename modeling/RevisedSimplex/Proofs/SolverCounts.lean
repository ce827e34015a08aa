import RevisedSimplex.Proofs.SolverHistories

/-!
# What a solver counts

The iterate, the solver and the factorization count on their own.  A pivot that is carried out is
counted by all three of them, and one that is refused or that fails by none; a factorization from
scratch is counted by the solver and by the factorization.  A solver whose counts agree is
`Balanced`, and every turn keeps it so.

The factorization also counts the changes since it was made from scratch, which are its update
columns.  `pivotsSince` finds their number from the turns of a history.  When a step begins it is
below the cap, and a step adds at most one.
-/

namespace RevisedSimplex

/-! ### Kinds -/

/-- The number of major pivots in an iteration, or in none. -/
def majors : Option IterationKind → ℕ
  | some .majorPivot => 1
  | _ => 0

theorem majors_le_one (kind : Option IterationKind) :
  majors kind ≤ 1
  := by
  unfold majors
  split <;> simp

/-- The number of bound flips in an iteration, or in none. -/
def flips : Option IterationKind → ℕ
  | some .boundFlip => 1
  | _ => 0

/-- The iteration of a turn, if there was one. -/
def Turn.kind? {R F : Type} [Scalar F] (turn : Turn R F) : Option IterationKind :=
  turn.step.bind iterated?

variable {F : Type} [Scalar F] {kind : Option IterationKind}

/-! ### Product forms -/

namespace ProductForm

variable {form : ProductForm F} {context : Context F}

/-- A form that has gained some update columns, and has counted them. -/
structure Gains (n : ℕ) (form after : ProductForm F) : Prop where
  columns : after.file.columns.length = form.file.columns.length + n
  factorColumns : after.file.factorColumns = form.file.factorColumns
  pivots : after.pivots = form.pivots + n
  statistics : after.statistics = { form.statistics with pivots := form.statistics.pivots + n }

omit [Scalar F] in
theorem gains_zero (form : ProductForm F) :
  form.Gains 0 form
  := ⟨rfl, rfl, rfl, rfl⟩

theorem gains_of_prepareUpdate? {row entering : ℕ} {column : DenseVector F}
    {prepared : Outcome (ProductForm F) (Except Error F)}
    (h : form.prepareUpdate? context row entering column = some prepared) :
  form.Gains 0 prepared.state
  := by
  obtain ⟨-, staged, -, ⟨-, -, hstate⟩ | ⟨-, -, hstate⟩⟩ := prepareUpdate?_spec h
  · rw [hstate]
    exact ⟨congrArg List.length form.file.columns_discardStaged, rfl, rfl, rfl⟩
  · rw [hstate]
    exact ⟨congrArg List.length (form.file.columns_stage staged), rfl, rfl, rfl⟩

theorem Gains.finishUpdate? {staged : ProductForm F} (h : form.Gains 0 staged) {flip : Bool}
    {finished : Outcome (ProductForm F) Bool}
    (hfinished : staged.finishUpdate? flip = some finished) (hresult : finished.result = true) :
  form.Gains 1 finished.state
  := by
  rcases finishUpdate?_spec hfinished with ⟨-, hnone, -⟩ | ⟨column, inverse, -, -, -, hstate⟩
  · rw [hresult] at hnone
    cases hnone
  · rw [hstate]
    constructor
    case columns => simp [extended, h.columns]
    case factorColumns => apply h.factorColumns
    case pivots =>
      change staged.pivots + 1 = _
      rw [h.pivots]
    case statistics =>
      change { staged.statistics with pivots := staged.statistics.pivots + 1 } = _
      rw [h.statistics, Nat.add_zero]

end ProductForm

namespace Solver

variable {solver middle after loaded : Solver (ProductForm F) F}

/-! ### Steps -/

/-- The counts after an iteration, or after none.  It is counted by its kind, by its method and by
the factorization; a major pivot may be dual or degenerate, but not both. -/
structure Counts (kind : Option IterationKind) (solver after : Solver (ProductForm F) F) :
    Prop where
  majorPivots : after.iterate.majorPivots = solver.iterate.majorPivots + majors kind
  boundFlips : after.iterate.boundFlips = solver.iterate.boundFlips + flips kind
  form : solver.factorization.Gains (majors kind) after.factorization
  methods : after.counters.dualIterations + after.counters.primalIterations
    = solver.counters.dualIterations + solver.counters.primalIterations + majors kind + flips kind
  degenerate : after.counters.degeneratePivots + after.counters.dualIterations
    ≤ solver.counters.degeneratePivots + solver.counters.dualIterations + majors kind
  refactorizations : after.counters.refactorizations = solver.counters.refactorizations
  singularities : after.counters.singularities = solver.counters.singularities

theorem counts_none (solver : Solver (ProductForm F) F) :
  solver.Counts none solver
  := ⟨rfl, rfl, solver.factorization.gains_zero, rfl, le_rfl, rfl, rfl⟩

/-- Loading a column counts nothing. -/
theorem Loads.counts (h : solver.Loads loaded) (hcounts : loaded.Counts kind after) :
  solver.Counts kind after
  := by
  obtain ⟨_, -, rfl⟩ := h
  exact ⟨hcounts.majorPivots, hcounts.boundFlips, hcounts.form, hcounts.methods,
    hcounts.degenerate, hcounts.refactorizations, hcounts.singularities⟩

/-- Staging an exchange counts nothing. -/
theorem gains_of_stage? {leavingRow : Option ℕ} {entering : ℕ} {theta : F} {primal : Bool}
    {staged : Outcome (ProductForm F) (Option Error)}
    (h : solver.stage? leavingRow entering theta primal = some staged) :
  solver.factorization.Gains 0 staged.state
  := by
  rcases stage?_cases h with ⟨-, hstate, -⟩ | ⟨row, prepared, -, -, hprepared, hstate, -⟩
  · rw [hstate]
    apply solver.factorization.gains_zero
  · rw [hstate]
    apply ProductForm.gains_of_prepareUpdate? hprepared

/-- A pivot is counted if it is carried out.  A dual one is an exchange, and a primal one is counted
as degenerate later. -/
theorem Shaped.pivot?_counts (h : solver.Shaped) {leavingRow : Option ℕ} {entering : ℕ} {theta : F}
    {primal : Bool} {pivoted : Outcome (Solver (ProductForm F) F) (Except Error IterationKind)}
    (hpivoted : solver.pivot? leavingRow entering theta primal = some pivoted)
    (hdual : primal = false → leavingRow ≠ none) :
  solver.Counts pivoted.result.toOption pivoted.state
    ∧ (primal = true → pivoted.state.counters.degeneratePivots = solver.counters.degeneratePivots
      ∧ pivoted.state.counters.dualIterations = solver.counters.dualIterations)
  := by
  obtain ⟨staged, hstaged, hcases⟩ := pivot?_cases hpivoted
  have hgains := gains_of_stage? hstaged
  obtain ⟨result, state, events⟩ := pivoted
  dsimp only at hcases ⊢
  rcases hcases with ⟨e, rfl, -, rfl⟩ | ⟨_, _, after, -, -, hafter, hflip, rfl, rfl⟩
    | ⟨row, prepared, _, finished, after, -, -, -, -, hstate, hfinished, hdone, hafter, rfl, rfl⟩
  · exact ⟨⟨rfl, rfl, hgains, rfl, le_rfl, rfl, rfl⟩, fun _ => ⟨rfl, rfl⟩⟩
  · obtain ⟨-, basis, values, rfl⟩ := h.sized.flip? hafter
    cases primal with
    | true =>
        have hsame := solver.factorization.gains_zero
        exact ⟨⟨rfl, rfl, hsame, rfl, le_rfl, rfl, rfl⟩, fun _ => ⟨rfl, rfl⟩⟩
    | false =>
        obtain ⟨row, rfl⟩ := Option.ne_none_iff_exists'.mp (hdual rfl)
        cases hflip
  · obtain ⟨-, basis, values, rfl⟩ := h.sized.exchange? hafter
    rw [hstate] at hgains
    have hform := hgains.finishUpdate? hfinished hdone
    cases primal with
    | true => exact ⟨⟨rfl, rfl, hform, rfl, Nat.le_succ _, rfl, rfl⟩, fun _ => ⟨rfl, rfl⟩⟩
    | false =>
        refine ⟨⟨rfl, rfl, hform, ?_, le_rfl, rfl, rfl⟩, by simp⟩
        apply Nat.add_right_comm

/-- A step counts its iteration if it carries one out. -/
theorem Shaped.step?_counts (h : solver.Shaped)
    {outcome : Outcome (Solver (ProductForm F) F) (Except Error StepResult)}
    (hstep : solver.step? = some outcome) :
  solver.Counts (iterated? outcome.result) outcome.state
  := by
  rcases h.step?_cases hstep with ⟨loaded, status, hloads, rfl, -⟩
    | ⟨loaded, _, _, _, primal, pivoted, n, hloads, hpivoted, hresult, hstate, hdual, hn⟩
  · apply hloads.counts loaded.counts_none
  · obtain ⟨hcounts, hprimal⟩ := (hloads.shaped h).pivot?_counts hpivoted hdual
    apply hloads.counts
    have hkind : iterated? outcome.result = pivoted.result.toOption := by
      rw [hresult]
      cases pivoted.result <;> rfl
    rw [hkind, hstate]
    refine ⟨hcounts.majorPivots, hcounts.boundFlips, hcounts.form, hcounts.methods, ?_,
      hcounts.refactorizations, hcounts.singularities⟩
    rcases hn with rfl | ⟨hmethod, hmajor, rfl⟩
    · apply hcounts.degenerate
    · -- A primal pivot left room for counting it as degenerate.
      obtain ⟨hsame, hdual⟩ := hprimal hmethod
      dsimp only
      rw [hsame, hdual, hmajor]
      apply (Nat.add_right_comm _ _ _).le

/-! ### Agreement -/

/-- The counts agree with each other. -/
structure Balanced (solver : Solver (ProductForm F) F) : Prop where
  methods : solver.iterate.majorPivots + solver.iterate.boundFlips
    = solver.counters.dualIterations + solver.counters.primalIterations
  degenerate : solver.counters.degeneratePivots + solver.counters.dualIterations
    ≤ solver.iterate.majorPivots
  pivots : solver.factorization.statistics.pivots = solver.iterate.majorPivots
  refactorizations : solver.factorization.statistics.refactorizations
    = solver.counters.refactorizations
  singularities : solver.factorization.statistics.singularities = solver.counters.singularities
  columns : solver.factorization.file.columns.length
    = solver.factorization.file.factorColumns + solver.factorization.pivots

/-- The length of the updates is the number of changes. -/
theorem Balanced.etaLength (h : solver.Balanced) :
  BasisFactorization.etaLength solver.factorization
    = BasisFactorization.nrPivots solver.factorization
  := by
  change solver.factorization.file.nrUpdates = solver.factorization.pivots
  rw [EtaFile.nrUpdates_eq, h.columns, Nat.add_sub_cancel_left]

/-- An iteration keeps the counts in agreement. -/
theorem Balanced.counts (h : solver.Balanced) (hcounts : solver.Counts kind after) :
  after.Balanced
  := by
  obtain ⟨hmajor, hflips, hform, hmethods, hdegenerate, hrefactorizations, hsingularities⟩ :=
    hcounts
  constructor
  case methods =>
    have hold := h.methods
    omega
  case degenerate =>
    have hold := h.degenerate
    omega
  case pivots => rw [hform.statistics, hmajor, h.pivots]
  case refactorizations => rw [hform.statistics, hrefactorizations, h.refactorizations]
  case singularities => rw [hform.statistics, hsingularities, h.singularities]
  case columns =>
    rw [hform.columns, hform.factorColumns, hform.pivots, h.columns, Nat.add_assoc]

/-- A factorization from scratch is counted twice, with its singular columns. -/
theorem Balanced.rebuild? (h : solver.Balanced)
    {rebuilt : Outcome (Solver (ProductForm F) F) Factorization}
    (hrebuilt : solver.rebuild? = some rebuilt) :
  rebuilt.state.Balanced
  := by
  obtain ⟨factorized, basis, values, hfactorized, -, -, rfl⟩ := rebuild?_spec hrebuilt
  obtain ⟨-, placed, hplaced, hresult, hstate⟩ := ProductForm.factorize?_spec hfactorized
  obtain ⟨-, -, hcolumns⟩ := PlacedBasis.fits_of_of? hplaced
  rw [EtaFile.nrColumns_eq] at hcolumns
  dsimp only
  rw [hresult, hstate]
  refine ⟨h.methods, h.degenerate, h.pivots, ?_, ?_, hcolumns.symm⟩
  · exact congrArg (· + 1) h.refactorizations
  · exact congrArg (· + placed.singular.length) h.singularities

/-- A refused pivot is not among the counts. -/
theorem Counts.refuse (h : solver.Counts kind after) (recovering : Bool) :
  solver.Counts kind (after.refuse recovering)
  := by
  cases recovering with
  | true =>
      exact ⟨h.majorPivots, h.boundFlips, h.form, h.methods, h.degenerate, h.refactorizations,
        h.singularities⟩
  | false =>
      exact ⟨h.majorPivots, h.boundFlips,
        ⟨h.form.columns, h.form.factorColumns, h.form.pivots, h.form.statistics⟩, h.methods,
        h.degenerate, h.refactorizations, h.singularities⟩

end Solver

/-! ### Turns -/

/-- The number of changes of a factorization after a turn, from their number before it. -/
def Turn.pivotsAfter {R F : Type} [Scalar F] (pivots : ℕ) (turn : Turn R F) : ℕ :=
  (if turn.rebuilt.isSome then 0 else pivots) + majors turn.kind?

/-- The number of major pivots since the last factorization from scratch among the turns, or since
a number of pivots before them. -/
def pivotsSince {R F : Type} [Scalar F] (pivots : ℕ) (turns : List (Turn R F)) : ℕ :=
  turns.foldl Turn.pivotsAfter pivots

theorem pivotsSince_append {R F : Type} [Scalar F] (pivots : ℕ) (turns later : List (Turn R F)) :
  pivotsSince pivots (turns ++ later) = pivotsSince (pivotsSince pivots turns) later
  := List.foldl_append

/-- A bound flip leaves the number as it is after the preparation of its turn. -/
theorem pivotsSince_concat_boundFlip {R F : Type} [Scalar F] {turn : Turn R F}
    (h : turn.kind? = some .boundFlip) (pivots : ℕ) (turns : List (Turn R F)) :
  pivotsSince pivots (turns ++ [turn])
    = if turn.rebuilt.isSome then 0 else pivotsSince pivots turns
  := by
  rw [pivotsSince_append]
  change Turn.pivotsAfter _ turn = _
  unfold Turn.pivotsAfter
  rw [h]
  rfl

namespace Solver

variable {solver after : Solver (ProductForm F) F} {reading : Reading} {recovering : Bool}
  {turn : Turn (ProductForm F) F}

/-- A turn counts its iteration after the preparation. -/
theorem Shaped.turn?_counts (h : solver.Shaped)
    (hturn : solver.turn? reading recovering = some turn) :
  ∃ prepared, solver.prepare? reading = some prepared ∧ turn.rebuilt = prepared.result
    ∧ prepared.state.Counts turn.kind? turn.solver
  := by
  obtain ⟨prepared, hprepared, hrebuilt, hcases⟩ := turn?_cases hturn
  refine ⟨prepared, hprepared, hrebuilt, ?_⟩
  unfold Turn.kind?
  rcases hcases with ⟨-, hstep, -, hsolver⟩ | ⟨outcome, hstep, hresult, hcases⟩
  · rw [hstep, hsolver]
    apply counts_none
  · have hcounts := (h.prepare? hprepared).1.shaped.step?_counts hstep
    rw [hresult, Option.bind_some]
    rcases hcases with ⟨_, -, -, hsolver⟩ | ⟨_, _, _, -, -, hsolver⟩ | ⟨_, -, -, -, hsolver⟩
    · rw [hsolver]
      apply hcounts
    · rw [hsolver]
      apply hcounts.refuse
    · rw [hsolver]
      apply hcounts

/-- A turn keeps the counts in agreement. -/
theorem Balanced.turn? (h : solver.Balanced) (hshaped : solver.Shaped)
    (hturn : solver.turn? reading recovering = some turn) :
  turn.solver.Balanced
  := by
  obtain ⟨prepared, hprepared, -, hcounts⟩ := hshaped.turn?_counts hturn
  have hbalanced (clock : RefactorizationClock) :
      Balanced { solver with factorization := { solver.factorization with clock } } :=
    ⟨h.methods, h.degenerate, h.pivots, h.refactorizations, h.singularities, h.columns⟩
  refine Balanced.counts ?_ hcounts
  obtain ⟨clock, ⟨-, hstate, -⟩ | ⟨rebuilt, hrebuilt, -, hstate⟩⟩ := prepare?_cases hprepared
  · rw [hstate]
    apply hbalanced
  · rw [hstate]
    apply (hbalanced clock).rebuild? hrebuilt

/-- A step begins below the cap, and adds at most one pivot. -/
theorem Shaped.turn?_pivots (h : solver.Shaped) (hcap : 0 < solver.context.policy.pivotCap)
    (hturn : solver.turn? reading recovering = some turn) :
  turn.solver.factorization.pivots = turn.pivotsAfter solver.factorization.pivots
    ∧ turn.solver.factorization.pivots ≤ solver.context.policy.pivotCap
  := by
  obtain ⟨prepared, hprepared, hresult, hcounts⟩ := h.turn?_counts hturn
  have hlt : prepared.state.factorization.pivots < solver.context.policy.pivotCap := by
    rw [← (h.prepare? hprepared).1.context_eq]
    apply (h.prepare?_settled hcap hprepared).pivots
  have hstart : prepared.state.factorization.pivots
      = if turn.rebuilt.isSome then 0 else solver.factorization.pivots := by
    obtain ⟨clock, ⟨hnone, hstate, -⟩ | ⟨rebuilt, hrebuilt, hsome, hstate⟩⟩ :=
      prepare?_cases hprepared
    · rw [hresult, hnone, hstate]
      rfl
    · rw [hresult, hsome, hstate]
      apply ((h.with_clock clock).rebuild? hrebuilt).2.2.2.2.2
  have hone := majors_le_one turn.kind?
  have hpivots := hcounts.form.pivots
  constructor
  · rw [hpivots, hstart]
    rfl
  · omega

/-! ### Runs -/

/-- Counts that agree, with a number of changes that is within the cap. -/
structure BalancedWithin (cap n : ℕ) (solver : Solver (ProductForm F) F) : Prop
    extends Balanced solver where
  nrPivots : solver.factorization.pivots = n
  capped : n ≤ cap

/-- A turn keeps the counts in agreement, and the number of changes within the cap. -/
theorem BalancedWithin.turn? {cap n : ℕ} (h : solver.BalancedWithin cap n)
    (hshaped : solver.Shaped) (hcap : solver.context.policy.pivotCap = cap) (hpos : 0 < cap)
    (hturn : solver.turn? reading recovering = some turn) :
  turn.solver.BalancedWithin cap (turn.pivotsAfter n)
  := by
  obtain ⟨hpivots, hle⟩ := hshaped.turn?_pivots (hcap ▸ hpos) hturn
  rw [h.nrPivots] at hpivots
  rw [hpivots, hcap] at hle
  exact ⟨h.toBalanced.turn? hshaped hturn, hpivots, hle⟩

/-- After every turn of a run the counts agree.  By induction on the turns before it. -/
theorem BalancedWithin.run? {readings : ℕ → Reading} {cap : ℕ} :
    ∀ {earlier later : List (Turn (ProductForm F) F)} {budget i n : ℕ} {recovering : Bool}
      {solver : Solver (ProductForm F) F},
      solver.BalancedWithin cap n → solver.Shaped → solver.context.policy.pivotCap = cap →
      0 < cap → run? readings budget i recovering solver = some (earlier ++ turn :: later) →
      turn.solver.BalancedWithin cap (pivotsSince n (earlier ++ [turn]))
  | [], _, _, _, _, _, _, h, hshaped, hcap, hpos, hrun => by
      obtain ⟨_, -, hturn, -⟩ := run?_cons hrun
      apply h.turn? hshaped hcap hpos hturn
  | first :: earlier, _, _, _, _, _, _, h, hshaped, hcap, hpos, hrun => by
      obtain ⟨_, -, hfirst, ⟨flag, -, hlater⟩ | ⟨-, hnil⟩⟩ := run?_cons hrun
      · have hfollows := (hshaped.turn? hfirst).1
        apply BalancedWithin.run? (h.turn? hshaped hcap hpos hfirst) hfollows.shaped
          (hfollows.context_eq ▸ hcap) hpos hlater
      · simp at hnil

/-! ### Histories -/

variable {model : Model F} {settings : Settings} {rule : PricingRule F}
  {turns : List (Turn (ProductForm F) F)}

/-- The solvers that come from a new one by setting bases and by solves, with the turns of the
solves. -/
inductive Recorded (model : Model F) (settings : Settings) (rule : PricingRule F) :
    List (Turn (ProductForm F) F) → Solver (ProductForm F) F → Prop
  | made {solver : Solver (ProductForm F) F} :
      withComponents model settings (ProductForm.identity model.nrRows) rule = .ok solver →
      Recorded model settings rule [] solver
  | setBasis {turns : List (Turn (ProductForm F) F)} {solver after : Solver (ProductForm F) F}
      (basis : Basis) :
      Recorded model settings rule turns solver → solver.setBasis basis = .ok after →
      Recorded model settings rule turns after
  | solve {turns later : List (Turn (ProductForm F) F)} {solver : Solver (ProductForm F) F}
      {outcome : Outcome (Solver (ProductForm F) F) (SolveEnd F)} (readings : ℕ → Reading)
      (patience : ℕ) :
      Recorded model settings rule turns solver →
      run? readings (solver.turnBudget patience) 0 false solver = some later →
      solver.solve? readings patience = some outcome →
      Recorded model settings rule (turns ++ later) outcome.state

/-- Every visited solver has a record. -/
theorem Visited.exists_recorded (h : Visited model settings rule solver) :
  ∃ turns, Recorded model settings rule turns solver
  := by
  induction h with
  | made hmade => exact ⟨[], .made hmade⟩
  | setBasis basis _ hset ih =>
      obtain ⟨turns, hturns⟩ := ih
      exact ⟨turns, hturns.setBasis basis hset⟩
  | solve readings patience _ hsolve ih =>
      obtain ⟨turns, hturns⟩ := ih
      obtain ⟨later, hlater, -⟩ := Option.bind_eq_some_iff.mp hsolve
      exact ⟨turns ++ later, hturns.solve readings patience hlater hsolve⟩

theorem Recorded.visited (h : Recorded model settings rule turns solver) :
  Visited model settings rule solver
  := by
  induction h with
  | made hmade => apply Visited.made hmade
  | setBasis basis _ hset ih => apply ih.setBasis basis hset
  | solve readings patience _ _ hsolve ih => apply ih.solve readings patience hsolve

/-- A new solver has counted nothing. -/
theorem balancedWithin_of_withComponents
    (h : withComponents model settings (ProductForm.identity model.nrRows) rule = .ok solver)
    (cap : ℕ) :
  solver.BalancedWithin cap 0
  := by
  obtain ⟨context, -, rfl⟩ := withComponents_eq_ok h
  exact ⟨⟨rfl, le_rfl, rfl, rfl, rfl, rfl⟩, rfl, Nat.zero_le cap⟩

/-- Another basis does not change the counts. -/
theorem BalancedWithin.setBasis {cap n : ℕ} (h : solver.BalancedWithin cap n) {basis : Basis}
    (hset : solver.setBasis basis = .ok after) :
  after.BalancedWithin cap n
  := by
  obtain ⟨-, -, rfl⟩ := setBasis_eq_ok hset
  exact ⟨⟨h.methods, h.degenerate, h.pivots, h.refactorizations, h.singularities, h.columns⟩,
    h.nrPivots, h.capped⟩

/-- Over a whole history the counts agree, now and after each of its turns. -/
theorem Recorded.balancedWithin (h : Recorded model settings rule turns solver) :
  solver.BalancedWithin settings.policy.pivotCap (pivotsSince 0 turns)
    ∧ ∀ {earlier turn later}, turns = earlier ++ turn :: later →
      turn.solver.BalancedWithin settings.policy.pivotCap (pivotsSince 0 (earlier ++ [turn]))
  := by
  induction h with
  | made hmade => exact ⟨balancedWithin_of_withComponents hmade _, by simp⟩
  | setBasis basis _ hset ih => exact ⟨ih.1.setBasis hset, ih.2⟩
  | @solve turns later solver outcome readings patience hrecorded hrun hsolve ih =>
      have hmade := hrecorded.visited.madeOf
      have hcap : solver.context.policy.pivotCap = settings.policy.pivotCap := by
        rw [hmade.policy]
      have hlater {earlier rest : List (Turn (ProductForm F) F)} {turn : Turn (ProductForm F) F}
          (hsplit : later = earlier ++ turn :: rest) :
          turn.solver.BalancedWithin settings.policy.pivotCap
            (pivotsSince 0 (turns ++ earlier ++ [turn])) := by
        rw [List.append_assoc, pivotsSince_append]
        apply ih.1.run? hmade.shaped hcap (hcap ▸ hmade.pivotCap_pos) (hsplit ▸ hrun)
      constructor
      · obtain ⟨again, hagain, hfinish⟩ := Option.bind_eq_some_iff.mp hsolve
        rw [hrun, Option.some_inj] at hagain
        subst hagain
        rw [state_of_finish? hfinish]
        rcases List.eq_nil_or_concat later with rfl | ⟨earlier, last, rfl⟩
        · rw [List.append_nil]
          apply ih.1
        · rw [List.concat_eq_append, List.getLast?_append_cons, ← List.append_assoc]
          apply hlater (List.concat_eq_append)
      · intro earlier turn rest hsplit
        rcases List.append_eq_append_iff.mp hsplit with ⟨middle, rfl, hmiddle⟩
          | ⟨middle, hmiddle, hrest⟩
        · apply hlater hmiddle
        · cases middle with
          | nil =>
              have hfirst := @hlater [] rest turn hrest.symm
              rw [hmiddle] at hfirst
              simpa using hfirst
          | cons other middle =>
              rw [List.cons_append, List.cons.injEq] at hrest
              obtain ⟨rfl, -⟩ := hrest
              apply ih.2 hmiddle

/-- What the statistics of a solver and of its factorization say about each other, with a cap and
the number of changes since the last factorization. -/
structure CountersAgree (cap n : ℕ) (solver : Solver (ProductForm F) F) : Prop where
  methods : solver.statistics.majorPivots + solver.statistics.boundFlips
    = solver.statistics.counters.dualIterations + solver.statistics.counters.primalIterations
  dual : solver.statistics.counters.dualIterations ≤ solver.statistics.majorPivots
  degenerate : solver.statistics.counters.degeneratePivots
    ≤ solver.statistics.majorPivots - solver.statistics.counters.dualIterations
  pivots : solver.statistics.majorPivots
    = (BasisFactorization.statistics solver.factorization).pivots
  refactorizations : solver.statistics.counters.refactorizations
    = (BasisFactorization.statistics solver.factorization).refactorizations
  singularities : solver.statistics.counters.singularities
    = (BasisFactorization.statistics solver.factorization).singularities
  etaLength : solver.statistics.etaLength = BasisFactorization.nrPivots solver.factorization
  nrPivots : BasisFactorization.nrPivots solver.factorization = n
  capped : n ≤ cap

theorem BalancedWithin.agree {cap n : ℕ} (h : solver.BalancedWithin cap n) :
  solver.CountersAgree cap n
  := by
  have hdegenerate := h.degenerate
  refine ⟨h.methods, le_of_add_le_right hdegenerate, Nat.le_sub_of_add_le hdegenerate,
    h.pivots.symm, h.refactorizations.symm, h.singularities.symm, h.toBalanced.etaLength,
    h.nrPivots, h.capped⟩

/-- Counters agree over whole histories.

Let a solver come from a new one by setting bases and by solves, in any numbers.  It has counted as
many iterations by kind as by method; its dual iterations are major pivots, and its degenerate
pivots are others of them.  The factorization has counted the same major pivots, factorizations and
singular columns.  The length of its updates is the number of major pivots since it was last made
from scratch, which is within the cap.  The same holds after each turn of each of the solves, and a
bound flip does not change that number. -/
theorem Recorded.countersAgree (h : Recorded model settings rule turns solver) :
  solver.CountersAgree settings.policy.pivotCap (pivotsSince 0 turns)
    ∧ ∀ earlier turn later, turns = earlier ++ turn :: later →
      turn.solver.CountersAgree settings.policy.pivotCap (pivotsSince 0 (earlier ++ [turn]))
        ∧ (turn.kind? = some .boundFlip → pivotsSince 0 (earlier ++ [turn])
          = if turn.rebuilt.isSome then 0 else pivotsSince 0 earlier)
  := by
  obtain ⟨hlast, hturns⟩ := h.balancedWithin
  refine ⟨hlast.agree, ?_⟩
  intro earlier turn later hsplit
  exact ⟨(hturns hsplit).agree,
    fun hkind => pivotsSince_concat_boundFlip hkind 0 earlier⟩

/-- The model with thirds is solved with two pivots after a single factorization. -/
theorem Recorded.countersAgree_thirds :
  ∃ turns outcome, run? (fun _ => {}) (thirds.turnBudget 5) 0 false thirds = some turns
    ∧ thirds.solve? (fun _ => {}) 5 = some outcome
    ∧ Recorded .thirds .untimed .dantzig turns outcome.state ∧ pivotsSince 0 turns = 2
    ∧ outcome.state.CountersAgree Settings.untimed.policy.pivotCap 2
  := by
  have hstatus : ((thirds.solve? (fun _ => {}) 5).bind fun outcome =>
      outcome.result.status?) = some .optimal := by
    decide +kernel
  have hpivots : (run? (fun _ => {}) (thirds.turnBudget 5) 0 false thirds).map (pivotsSince 0)
      = some 2 := by
    decide +kernel
  obtain ⟨outcome, _, hsolve, -⟩ := exists_solved hstatus
  obtain ⟨turns, hturns, hcount⟩ := Option.map_eq_some_iff.mp hpivots
  have hrecorded := (Recorded.made thirds_made).solve (fun _ => {}) 5 hturns hsolve
  have hagree := hrecorded.countersAgree.1
  rw [List.nil_append, hcount] at hagree
  exact ⟨turns, outcome, hturns, hsolve, hrecorded, hcount, hagree⟩

end Solver

end RevisedSimplex
