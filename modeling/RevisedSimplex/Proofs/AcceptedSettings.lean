import RevisedSimplex.Proofs.FiniteNumbers

/-!
# Accepted settings

Settings are checked as doubles, in a fixed order, and the first number that is out of range is
reported.  What passes is converted to the numbers of a solve.  None of the tolerances of a context
is negative or undefined, and those are finite whose doubles have a finite counterpart: all of them
in a solve with doubles, and in single precision those below `MachineNumber.singleLimit`.  Larger
ones are accepted as well and become infinite.
-/

namespace RevisedSimplex

/-! ### Ranges -/

/-- The tolerance of a name. -/
def ToleranceSettings.value (tolerances : ToleranceSettings) : ToleranceName → Float
  | .pivotEpsilonScale => tolerances.pivotEpsilonScale
  | .primal => tolerances.primal
  | .dual => tolerances.dual
  | .ratioPivot => tolerances.ratioPivot
  | .factorizationPivot => tolerances.factorizationPivot
  | .drop => tolerances.drop
  | .harrisScale => tolerances.harrisScale

/-- The tolerance that a solve has for the one of a name. -/
def Tolerances.value {F : Type} (tolerances : Tolerances F) : ToleranceName → F
  | .pivotEpsilonScale => tolerances.pivot
  | .primal => tolerances.primal
  | .dual => tolerances.dual
  | .ratioPivot => tolerances.ratioPivot
  | .factorizationPivot => tolerances.factorizationPivot
  | .drop => tolerances.drop
  | .harrisScale => tolerances.harris

/-- A policy with a pivot to go on with, a finite factor that does not shrink, and a fraction. -/
structure RefactorizationPolicy.InRange (policy : RefactorizationPolicy) : Prop where
  pivotCap : 1 ≤ policy.pivotCap
  growthFactor : policy.growthFactor.isFinite = true ∧ 1 ≤ policy.growthFactor
  warmUp : 0 ≤ policy.warmUp ∧ policy.warmUp ≤ 1

/-- A rule whose threshold, if it has one, is a positive fraction. -/
def RowSelection.InRange (rule : RowSelection Float) : Prop :=
  ∀ threshold, rule = .markowitz threshold → 0 < threshold ∧ threshold ≤ 1

/-- Settings with all numbers in range. -/
structure Settings.InRange (settings : Settings) : Prop where
  tolerances : ∀ name, (settings.tolerances.value name).isFinite = true
    ∧ 0 ≤ settings.tolerances.value name
  policy : settings.policy.InRange
  rowSelection : settings.rowSelection.InRange

/-! ### Faults -/

/-- The place of a tolerance in the order of the checks. -/
def ToleranceName.rank : ToleranceName → ℕ
  | pivotEpsilonScale => 0
  | primal => 1
  | dual => 2
  | ratioPivot => 3
  | factorizationPivot => 4
  | drop => 5
  | harrisScale => 6

/-- The place of a fault in the order of the checks. -/
def SettingFault.rank : SettingFault → ℕ
  | tolerance name _ => name.rank
  | pivotCap => 7
  | growthFactor _ => 8
  | warmUp _ => 9
  | markowitzThreshold _ => 10

/-- Settings with this number out of range. -/
def Settings.Violates (settings : Settings) : SettingFault → Prop
  | .tolerance name value => value = settings.tolerances.value name
      ∧ ¬ (value.isFinite = true ∧ 0 ≤ value)
  | .pivotCap => ¬ 1 ≤ settings.policy.pivotCap
  | .growthFactor value => value = settings.policy.growthFactor
      ∧ ¬ (value.isFinite = true ∧ 1 ≤ value)
  | .warmUp value => value = settings.policy.warmUp ∧ ¬ (0 ≤ value ∧ value ≤ 1)
  | .markowitzThreshold value => settings.rowSelection = .markowitz value
      ∧ ¬ (0 < value ∧ value ≤ 1)

variable {settings : Settings}

theorem Settings.inRange_iff :
  settings.InRange ↔ ∀ fault, ¬ settings.Violates fault
  := by
  constructor
  · rintro ⟨htolerances, ⟨hcap, hfactor, hwarmUp⟩, hrule⟩ fault hviolates
    cases fault with
    | tolerance name value =>
        obtain ⟨rfl, hout⟩ := hviolates
        apply hout (htolerances name)
    | pivotCap => apply hviolates hcap
    | growthFactor value =>
        obtain ⟨rfl, hout⟩ := hviolates
        apply hout hfactor
    | warmUp value =>
        obtain ⟨rfl, hout⟩ := hviolates
        apply hout hwarmUp
    | markowitzThreshold value => apply hviolates.2 (hrule value hviolates.1)
  · intro h
    refine ⟨?_, ⟨?_, ?_, ?_⟩, ?_⟩
    · intro name
      by_contra hout
      apply h (.tolerance name _) ⟨rfl, hout⟩
    · by_contra hout
      apply h .pivotCap hout
    · by_contra hout
      apply h (.growthFactor _) ⟨rfl, hout⟩
    · by_contra hout
      apply h (.warmUp _) ⟨rfl, hout⟩
    · intro threshold hrule
      by_contra hout
      apply h (.markowitzThreshold threshold) ⟨hrule, hout⟩

/-! ### The first fault -/

/-- A fault that is the first one among the checks from `low` on and before `high`, if these find
any. -/
def Settings.FirstFault (settings : Settings) (low high : ℕ) : Option SettingFault → Prop
  | none => ∀ fault, settings.Violates fault → low ≤ fault.rank → high ≤ fault.rank
  | some fault => settings.Violates fault
      ∧ ∀ other, settings.Violates other → low ≤ other.rank → fault.rank ≤ other.rank

namespace Settings.FirstFault

variable {low middle high : ℕ} {fault? other? : Option SettingFault}

/-- Checks that are made one after the other. -/
theorem or (h : settings.FirstFault low middle fault?)
    (hother : settings.FirstFault middle high other?) :
  settings.FirstFault low high (fault?.or other?)
  := by
  cases fault? with
  | some fault => exact h
  | none =>
      cases other? with
      | none =>
          intro fault hviolates hrank
          apply hother fault hviolates (h fault hviolates hrank)
      | some fault =>
          obtain ⟨hviolates, hfirst⟩ := hother
          refine ⟨hviolates, ?_⟩
          intro other hother hrank
          apply hfirst other hother (h other hother hrank)

/-- A single check, which fails when a number is not in its range. -/
theorem check {failed range : Prop} [Decidable failed] {fault : SettingFault}
    (hfailed : failed ↔ ¬ range) (hrank : fault.rank = low)
    (hviolates : ¬ range → settings.Violates fault)
    (hpassed : range → ∀ other, settings.Violates other → other.rank ≠ low) :
  settings.FirstFault low (low + 1) (if failed then some fault else none)
  := by
  by_cases h : failed
  · rw [if_pos h]
    refine ⟨hviolates (hfailed.mp h), ?_⟩
    intro other _ hle
    rwa [hrank]
  · rw [if_neg h]
    intro other hother hle
    have hne := hpassed (by rwa [hfailed, not_not] at h) other hother
    omega

end Settings.FirstFault

/-! ### The checks -/

theorem ToleranceName.rank_injective :
  Function.Injective rank
  := by
  intro name other h
  cases name <;> cases other <;> first | rfl | cases h

theorem SettingFault.eq_tolerance_of_rank_eq {fault : SettingFault} {name : ToleranceName}
    (h : fault.rank = name.rank) :
  ∃ value, fault = .tolerance name value
  := by
  cases fault with
  | tolerance other value => exact ⟨value, by rw [ToleranceName.rank_injective h]⟩
  | pivotCap => cases name <;> cases h
  | growthFactor value => cases name <;> cases h
  | warmUp value => cases name <;> cases h
  | markowitzThreshold value => cases name <;> cases h

theorem SettingFault.eq_markowitzThreshold_of_le_rank {fault : SettingFault}
    (h : 10 ≤ fault.rank) :
  ∃ threshold, fault = .markowitzThreshold threshold
  := by
  rcases fault with ⟨⟨⟩, _⟩ | _ | _ | _ | threshold
  case markowitzThreshold => exact ⟨threshold, rfl⟩
  all_goals simp [rank, ToleranceName.rank] at h

theorem SettingFault.rank_lt (fault : SettingFault) :
  fault.rank < 11
  := by
  rcases fault with ⟨⟨⟩, _⟩ | _ | _ | _ | _ <;> simp [rank, ToleranceName.rank]

/-- The doubles that are refused as tolerances. -/
theorem refused_iff (x : Float) :
  (!x.isFinite || decide (x < 0)) = true ↔ ¬ (x.isFinite = true ∧ 0 ≤ x)
  := by
  rw [Bool.or_eq_true, Bool.not_eq_true', decide_eq_true_iff, not_and, ← Bool.not_eq_true]
  constructor
  · rintro (hinfinite | hneg) hfinite hnonneg
    · apply hinfinite hfinite
    · apply MachineNumber.Formatted.double.not_neg_of_nonneg hnonneg hneg
  · intro h
    by_contra hpassed
    obtain ⟨hfinite, hnonneg⟩ := not_or.mp hpassed
    have hfinite := not_not.mp hfinite
    apply h hfinite (MachineNumber.Formatted.double.nonneg_of_not_neg hfinite hnonneg)

/-- The tolerances in the order of the checks. -/
def ToleranceName.ordered : List ToleranceName :=
  [pivotEpsilonScale, primal, dual, ratioPivot, factorizationPivot, drop, harrisScale]

namespace Settings

/-- The check of one tolerance. -/
def toleranceFault? (settings : Settings) (name : ToleranceName) : Option SettingFault :=
  if !(settings.tolerances.value name).isFinite || settings.tolerances.value name < 0 then
    some (.tolerance name (settings.tolerances.value name))
  else none

theorem firstFault_toleranceFault? (settings : Settings) (name : ToleranceName) :
  settings.FirstFault name.rank (name.rank + 1) (settings.toleranceFault? name)
  := by
  apply FirstFault.check (refused_iff _) rfl
  · intro hout
    exact ⟨rfl, hout⟩
  · intro hin other hviolates hrank
    obtain ⟨value, rfl⟩ := SettingFault.eq_tolerance_of_rank_eq hrank
    obtain ⟨rfl, hout⟩ := hviolates
    apply hout hin

/-- The checks of tolerances with consecutive places. -/
theorem firstFault_findSome? (settings : Settings) {low : ℕ} :
    ∀ {names : List ToleranceName}, names.map ToleranceName.rank = List.range' low names.length →
      settings.FirstFault low (low + names.length) (names.findSome? settings.toleranceFault?)
  | [], _ => fun _ _ hle => hle
  | name :: names, h => by
      rw [List.length_cons, List.map_cons, List.range'_succ, List.cons.injEq] at h
      obtain ⟨rfl, hrest⟩ := h
      have hor : (name :: names).findSome? settings.toleranceFault?
          = (settings.toleranceFault? name).or (names.findSome? settings.toleranceFault?) := by
        rw [List.findSome?_cons]
        cases settings.toleranceFault? name <;> rfl
      rw [hor, List.length_cons, Nat.add_comm names.length, ← Nat.add_assoc]
      apply (settings.firstFault_toleranceFault? name).or (settings.firstFault_findSome? hrest)

theorem firstFault_tolerances (settings : Settings) :
  settings.FirstFault 0 7 settings.tolerances.fault?
  := settings.firstFault_findSome? (show ToleranceName.ordered.map ToleranceName.rank
    = List.range' 0 ToleranceName.ordered.length from rfl)

theorem firstFault_pivotCap (settings : Settings) :
  settings.FirstFault 7 8 (if settings.policy.pivotCap = 0 then some .pivotCap else none)
  := by
  apply FirstFault.check (show _ ↔ ¬ 1 ≤ settings.policy.pivotCap by omega) rfl id
  intro hin other hviolates hrank
  rcases other with ⟨⟨⟩, _⟩ | _ | _ | _ | _ <;> cases hrank
  apply hviolates hin

theorem firstFault_growthFactor (settings : Settings) :
  settings.FirstFault 8 9
    (if !(1 ≤ settings.policy.growthFactor && settings.policy.growthFactor.isFinite) then
      some (.growthFactor settings.policy.growthFactor) else none)
  := by
  have hfailed : (!(decide (1 ≤ settings.policy.growthFactor)
      && settings.policy.growthFactor.isFinite)) = true
      ↔ ¬ (settings.policy.growthFactor.isFinite = true ∧ 1 ≤ settings.policy.growthFactor) := by
    rw [Bool.not_eq_true', ← Bool.not_eq_true, Bool.and_eq_true, decide_eq_true_iff, and_comm]
  apply FirstFault.check hfailed rfl
  · intro hout
    exact ⟨rfl, hout⟩
  · intro hin other hviolates hrank
    rcases other with ⟨⟨⟩, _⟩ | _ | _ | _ | _ <;> cases hrank
    obtain ⟨rfl, hout⟩ := hviolates
    apply hout hin

theorem firstFault_warmUp (settings : Settings) :
  settings.FirstFault 9 10
    (if !(0 ≤ settings.policy.warmUp && settings.policy.warmUp ≤ 1) then
      some (.warmUp settings.policy.warmUp) else none)
  := by
  have hfailed : (!(decide (0 ≤ settings.policy.warmUp) && decide (settings.policy.warmUp ≤ 1)))
      = true ↔ ¬ (0 ≤ settings.policy.warmUp ∧ settings.policy.warmUp ≤ 1) := by
    rw [Bool.not_eq_true', ← Bool.not_eq_true, Bool.and_eq_true, decide_eq_true_iff,
      decide_eq_true_iff]
  apply FirstFault.check hfailed rfl
  · intro hout
    exact ⟨rfl, hout⟩
  · intro hin other hviolates hrank
    rcases other with ⟨⟨⟩, _⟩ | _ | _ | _ | _ <;> cases hrank
    obtain ⟨rfl, hout⟩ := hviolates
    apply hout hin

theorem firstFault_policy (settings : Settings) :
  settings.FirstFault 7 10 settings.policy.fault?
  := by
  have h := settings.firstFault_pivotCap.or
    (settings.firstFault_growthFactor.or settings.firstFault_warmUp)
  unfold RefactorizationPolicy.fault?
  split
  · rwa [if_pos ‹_›] at h
  · rw [if_neg ‹_›] at h
    split
    · rwa [if_pos ‹_›] at h
    · rwa [if_neg ‹_›] at h

theorem firstFault_rowSelection (settings : Settings) :
  settings.FirstFault 10 11 settings.rowSelection.fault?
  := by
  cases hrule : settings.rowSelection with
  | largestMagnitude =>
      intro other hviolates hrank
      obtain ⟨threshold, rfl⟩ := SettingFault.eq_markowitzThreshold_of_le_rank hrank
      obtain ⟨hsame, -⟩ := hviolates
      rw [hrule] at hsame
      cases hsame
  | markowitz threshold =>
      change settings.FirstFault 10 11
        (if 0 < threshold && threshold ≤ 1 then none else some (.markowitzThreshold threshold))
      rw [← ite_not]
      apply FirstFault.check (show _ ↔ ¬ (0 < threshold ∧ threshold ≤ 1) by simp) rfl
      · intro hout
        exact ⟨hrule, hout⟩
      · intro hin other hviolates hrank
        rcases other with ⟨⟨⟩, _⟩ | _ | _ | _ | threshold <;> cases hrank
        obtain ⟨hsame, hout⟩ := hviolates
        rw [hrule] at hsame
        cases hsame
        apply hout hin

theorem firstFault_fault? (settings : Settings) :
  settings.FirstFault 0 11 settings.fault?
  := settings.firstFault_tolerances.or
    (settings.firstFault_policy.or settings.firstFault_rowSelection)

theorem fault?_eq_none_iff :
  settings.fault? = none ↔ settings.InRange
  := by
  have hfirst := settings.firstFault_fault?
  rw [inRange_iff]
  cases hfault : settings.fault? with
  | none =>
      rw [hfault] at hfirst
      apply iff_of_true rfl
      intro fault hviolates
      apply absurd (hfirst fault hviolates (Nat.zero_le _)) (not_le.mpr fault.rank_lt)
  | some fault =>
      rw [hfault] at hfirst
      apply iff_of_false (by simp)
      intro hnone
      apply hnone fault hfirst.1

end Settings

/-! ### Contexts -/

/-- What is accepted is in range. -/
theorem Context.inRange_of_ofSettings {F : Type} [Scalar F] {context : Context F}
    (h : ofSettings settings = .ok context) :
  settings.InRange ∧ context = convert settings
  := by
  obtain ⟨hfault, hcontext⟩ := ofSettings_eq_ok h
  exact ⟨Settings.fault?_eq_none_iff.mp hfault, hcontext⟩

theorem Settings.InRange.ofFloat_nonneg {F : Type} [Scalar F] [RoundedScalar F]
    (h : settings.InRange) (name : ToleranceName) :
  0 ≤ (Scalar.ofFloat (settings.tolerances.value name) : F)
  := by
  obtain ⟨hfinite, hnonneg⟩ := h.tolerances name
  apply RoundedScalar.ofFloat_nonneg hfinite
  apply MachineNumber.Formatted.double.not_neg_of_nonneg hnonneg

/-- The tolerances and the relaxation of an accepted context are not negative. -/
theorem RoundedScalar.tolerances_nonneg_of_ofSettings {F : Type} [Scalar F] [RoundedScalar F]
    {context : Context F} (h : Context.ofSettings settings = .ok context) :
  0 ≤ context.tolerances.primal ∧ 0 ≤ context.tolerances.dual ∧ 0 ≤ context.tolerances.harris
  := by
  obtain ⟨hrange, rfl⟩ := Context.inRange_of_ofSettings h
  exact ⟨hrange.ofFloat_nonneg .primal, hrange.ofFloat_nonneg .dual,
    hrange.ofFloat_nonneg .harrisScale⟩

theorem ExactScalar.tolerances_nonneg_of_ofSettings {F : Type} [ExactScalar F]
    {context : Context F} (h : Context.ofSettings settings = .ok context) :
  0 ≤ context.tolerances.dual ∧ 0 ≤ context.tolerances.harris
  := (RoundedScalar.tolerances_nonneg_of_ofSettings h).2

/-- What is made of settings in the numbers of a solve, `Representable` being the doubles with a
finite counterpart among these numbers. -/
structure Context.Validates (F : Type) [Scalar F] (Representable : Float → Prop)
    (settings : Settings) : Prop where
  /-- Settings are accepted if all their numbers are in range. -/
  accepted : (∃ context : Context F, ofSettings settings = .ok context) ↔ settings.InRange
  /-- Otherwise the first number that is not is reported. -/
  rejected : ∀ {error : Error}, (ofSettings settings : Except Error (Context F)) = .error error →
    ∃ fault, error = .invalidSetting fault ∧ settings.Violates fault
      ∧ ∀ other, settings.Violates other → fault.rank ≤ other.rank
  nonneg : ∀ {context : Context F}, ofSettings settings = .ok context →
    ∀ name, 0 ≤ context.tolerances.value name
  isFinite_iff : ∀ {context : Context F}, ofSettings settings = .ok context →
    ∀ name, Scalar.isFinite (context.tolerances.value name) = true
      ↔ Representable (settings.tolerances.value name)
  policy : ∀ {context : Context F}, ofSettings settings = .ok context → context.policy.InRange
  rowSelection : ∀ {context : Context F}, ofSettings settings = .ok context →
    settings.rowSelection.InRange
      ∧ context.rowSelection = settings.rowSelection.map Scalar.ofFloat

namespace Context

variable {F : Type} [Scalar F]

/-- The tolerances of a context are conversions, but for the multiple of the machine epsilon. -/
theorem convert_value (settings : Settings) (name : ToleranceName) :
  (convert settings : Context F).tolerances.value name
      = Scalar.ofFloat (settings.tolerances.value name)
    ∨ (convert settings : Context F).tolerances.value name
      = Scalar.ofFloat (settings.tolerances.value name) * Scalar.epsilon
  := by
  cases name with
  | pivotEpsilonScale => exact Or.inr rfl
  | _ => exact Or.inl rfl

variable [ScaledScalar F]

theorem nonneg_convert (h : settings.InRange) (name : ToleranceName) :
  0 ≤ (convert settings : Context F).tolerances.value name
  := by
  rcases convert_value (F := F) settings name with hvalue | hvalue
  · rw [hvalue]
    apply h.ofFloat_nonneg
  · rw [hvalue]
    apply ScaledScalar.mul_epsilon_nonneg (h.ofFloat_nonneg name)

theorem isFinite_convert (settings : Settings) (name : ToleranceName) :
  Scalar.isFinite ((convert settings : Context F).tolerances.value name)
    = Scalar.isFinite (Scalar.ofFloat (settings.tolerances.value name) : F)
  := by
  rcases convert_value (F := F) settings name with hvalue | hvalue
  · rw [hvalue]
  · rw [hvalue, ScaledScalar.isFinite_mul_epsilon]

theorem validates_of_representable {Representable : Float → Prop}
    (hrepresentable : ∀ {x : Float}, x.isFinite = true → 0 ≤ x →
      (Scalar.isFinite (Scalar.ofFloat x : F) = true ↔ Representable x)) (settings : Settings) :
  Validates F Representable settings
  := by
  constructor
  case accepted =>
    constructor
    · rintro ⟨context, h⟩
      apply (inRange_of_ofSettings h).1
    · intro h
      have hfault := Settings.fault?_eq_none_iff.mpr h
      exact ⟨_, ofSettings_eq_convert (Option.isNone_iff_eq_none.mpr hfault)⟩
  case rejected =>
    intro error h
    have hfirst := settings.firstFault_fault?
    unfold ofSettings at h
    cases hfault : settings.fault? with
    | none =>
        rw [hfault] at h
        cases h
    | some fault =>
        rw [hfault] at h hfirst
        cases h
        obtain ⟨hviolates, hleast⟩ := hfirst
        exact ⟨fault, rfl, hviolates, fun other hother => hleast other hother (Nat.zero_le _)⟩
  case nonneg =>
    intro context h name
    obtain ⟨hrange, rfl⟩ := inRange_of_ofSettings h
    apply nonneg_convert hrange
  case isFinite_iff =>
    intro context h name
    obtain ⟨hrange, rfl⟩ := inRange_of_ofSettings h
    obtain ⟨hfinite, hnonneg⟩ := hrange.tolerances name
    rw [isFinite_convert, hrepresentable hfinite hnonneg]
  case policy =>
    intro context h
    obtain ⟨hrange, rfl⟩ := inRange_of_ofSettings h
    apply hrange.policy
  case rowSelection =>
    intro context h
    obtain ⟨hrange, rfl⟩ := inRange_of_ofSettings h
    exact ⟨hrange.rowSelection, rfl⟩

/-- A context of doubles has finite tolerances only, and one of single precision those that are
set below the limit of this format. -/
theorem validates (settings : Settings) :
  Validates Float (fun _ => True) settings
    ∧ Validates Float32 (fun x => x < MachineNumber.singleLimit) settings
  := by
  constructor
  · apply validates_of_representable
    intro x hfinite _
    exact iff_of_true hfinite trivial
  · apply validates_of_representable
    intro x hfinite hnonneg
    apply MachineNumber.isFinite_nearestSingle_iff hfinite hnonneg

end Context

/-- Settings with a tolerance that is too large for single precision. -/
def Settings.oversized : Settings :=
  { tolerances := { primal := 1e39 } }

/-- A tolerance that is too large for single precision is accepted and becomes infinite. -/
theorem Context.ofSettings_oversized :
  ofSettings Settings.oversized = .ok (convert Settings.oversized : Context Float32)
    ∧ Scalar.isFinite (convert Settings.oversized : Context Float32).tolerances.primal = false
  := by
  constructor
  · apply ofSettings_eq_convert
    decide +kernel
  · decide +kernel

end RevisedSimplex
