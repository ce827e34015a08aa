import RevisedSimplex.Proofs.RoundedScalar
import RevisedSimplex.Proofs.Rounding

/-!
# Packed numbers

Both kinds of machine numbers are rounded numbers.  The facts are read off the values of what is
packed into their bits, with the infinities as the least and the greatest value.  `Directed` says
what rounding leaves of the order of a sum and its first summand, and `Formatted` that the
operations of some numbers are those of a format.
-/

namespace RevisedSimplex

namespace MachineNumber

open Float.Model (Format UnpackedFloat)
open Float.Model.UnpackedFloat

variable {format : Format} {m n : ℕ} {sign : Sign}

/-! ### Values -/

/-- A machine number that has come out of its bits, with its value as a multiple of the least
number of its format, unless it is undefined. -/
inductive Packed (format : Format) : UnpackedFloat → Option EInt → Prop
  | undefined : Packed format .notANumber none
  | top : Packed format (.infinity .positive) (some ⊤)
  | bottom : Packed format (.infinity .negative) (some ⊥)
  | number (sign : Sign) {n : ℕ} (h : Fits format n) :
      Packed format (ofMagnitude format sign n) (some ((sign.apply n : ℤ) : EInt))

variable {p q : UnpackedFloat} {s t : Option EInt}

theorem exists_packed (hbits : 1 < format.exponentBits) (b : BitVec format.numBits) :
  ∃ s, Packed format (unpack format b) s
  := by
  rcases unpack_cases hbits b with h | ⟨sign, h⟩ | ⟨sign, n, hn, h⟩
  · rw [h]
    exact ⟨_, .undefined⟩
  · rw [h]
    cases sign with
    | positive => exact ⟨_, .top⟩
    | negative => exact ⟨_, .bottom⟩
  · rw [h]
    exact ⟨_, .number sign hn⟩

theorem compare_top_number (sign : Sign) (n : ℕ) :
  UnpackedFloat.compare (.infinity .positive) (ofMagnitude format sign n) = some .gt
    ∧ UnpackedFloat.compare (.infinity .negative) (ofMagnitude format sign n) = some .lt
    ∧ UnpackedFloat.compare (ofMagnitude format sign n) (.infinity .positive) = some .lt
    ∧ UnpackedFloat.compare (ofMagnitude format sign n) (.infinity .negative) = some .gt
  := by
  unfold ofMagnitude
  split <;> exact ⟨rfl, rfl, rfl, rfl⟩

/-- Comparisons are those of the values. -/
theorem Packed.compare_eq {a b : EInt} (hp : Packed format p (some a))
    (hq : Packed format q (some b)) :
  p.compare q = some (if a < b then .lt else if a = b then .eq else .gt)
  := by
  cases hp with
  | top =>
      cases hq with
      | top => rfl
      | bottom => rfl
      | number sign hn =>
          rw [(compare_top_number sign _).1]
          rfl
  | bottom =>
      cases hq with
      | top => rfl
      | bottom => rfl
      | number sign hn =>
          rw [(compare_top_number sign _).2.1]
          rfl
  | number sign hm =>
      cases hq with
      | top =>
          rw [(compare_top_number sign _).2.2.1]
          rfl
      | bottom =>
          rw [(compare_top_number sign _).2.2.2]
          rfl
      | number other hn =>
          rw [compare_ofMagnitude sign other hm.onGrid hn.onGrid]
          simp only [WithBotTop.coe_lt_coe, WithBotTop.coe_injective.eq_iff]
          rfl

theorem compare_notANumber (p : UnpackedFloat) :
  p.compare .notANumber = none
  := by
  cases p <;> rfl

theorem Packed.lt_iff (hp : Packed format p s) (hq : Packed format q t) :
  p.lt q = true ↔ ∃ a b, s = some a ∧ t = some b ∧ a < b
  := by
  unfold UnpackedFloat.lt
  cases s with
  | none =>
      cases hp
      simp [UnpackedFloat.compare]
  | some a =>
      cases t with
      | none =>
          cases hq
          simp [compare_notANumber]
      | some b =>
          rw [hp.compare_eq hq]
          by_cases hlt : a < b
          · simp [hlt]
          · by_cases heq : a = b <;> simp [hlt, heq]

theorem Packed.le_iff (hp : Packed format p s) (hq : Packed format q t) :
  p.le q = true ↔ ∃ a b, s = some a ∧ t = some b ∧ a ≤ b
  := by
  unfold UnpackedFloat.le
  cases s with
  | none =>
      cases hp
      simp [UnpackedFloat.compare]
  | some a =>
      cases t with
      | none =>
          cases hq
          simp [compare_notANumber]
      | some b =>
          rw [hp.compare_eq hq]
          by_cases hlt : a < b
          · simp [hlt, hlt.le]
          · by_cases heq : a = b
            · simp [heq]
            · have hge : ¬ a ≤ b := fun h => hlt (lt_of_le_of_ne h heq)
              simp [hlt, heq, hge]

/-- What has come out of its bits does so again. -/
theorem Packed.unpack_pack (hbits : 1 < format.exponentBits) (hp : Packed format p s) :
  unpack format (pack format p) = p
  := by
  cases hp with
  | undefined => apply unpack_packedNaN
  | top => apply unpack_pack_infinity
  | bottom => apply unpack_pack_infinity
  | number sign hn => apply unpack_pack_ofMagnitude hbits sign hn

theorem beq_zero_neg (p : UnpackedFloat) (sign : Sign) :
  p.neg.beq (.zero sign) = p.beq (.zero sign)
  := by
  cases p with
  | infinity other => cases other <;> rfl
  | notANumber => rfl
  | zero other => rfl
  | finite other mantissa exponent hmantissa => cases other <;> rfl

/-! ### Sums -/

/-- A rounded number that fits is between the same numbers after packing. -/
theorem packed_of_fits (hbits : 1 < format.exponentBits) {z : ℤ} (sign : Sign)
    (hrounds : RoundsTo format z (sign.apply n)) (hfits : Fits format n) :
  ∃ c : EInt, Packed format (unpack format (pack format (ofMagnitude format sign n))) (some c)
    ∧ ∀ k : ℤ, Fits format k.natAbs → (z ≤ k → c ≤ (k : EInt)) ∧ (k ≤ z → (k : EInt) ≤ c)
  := by
  rw [unpack_pack_ofMagnitude hbits sign hfits]
  refine ⟨_, .number sign hfits, ?_⟩
  intro k hk
  rw [WithBotTop.coe_le_coe, WithBotTop.coe_le_coe]
  exact ⟨hrounds.le k hk.onGrid, hrounds.ge k hk.onGrid⟩

/-- A rounded number that does not fit becomes an infinity, beyond which there are no numbers. -/
theorem packed_of_beyond (hbits : 1 < format.exponentBits) {z : ℤ} (sign : Sign)
    (hrounds : RoundsTo format z (sign.apply n))
    (hbeyond : 2 ^ format.exponentBits ≤ gridExponent format n + 2) :
  ∃ c : EInt, Packed format (unpack format (pack format (ofMagnitude format sign n))) (some c)
    ∧ ∀ k : ℤ, Fits format k.natAbs → (z ≤ k → c ≤ (k : EInt)) ∧ (k ≤ z → (k : EInt) ≤ c)
  := by
  have hfour := four_le_two_pow hbits
  have hne : n ≠ 0 := by
    rintro rfl
    rw [gridExponent_eq_zero (Nat.two_pow_pos _)] at hbeyond
    omega
  have hlt {k : ℕ} (hk : Fits format k) : k < n := by
    have hexponent := hk.exponent
    apply lt_of_gridExponent_lt (show gridExponent format k < gridExponent format n by omega)
  rw [unpack_pack_beyond sign hne hbeyond]
  cases sign with
  | positive =>
      refine ⟨⊤, .top, ?_⟩
      intro k hk
      refine ⟨?_, fun _ => le_top⟩
      intro hle
      have hn : (n : ℤ) ≤ k := hrounds.le k hk.onGrid hle
      have hless := hlt hk
      omega
  | negative =>
      refine ⟨⊥, .bottom, ?_⟩
      intro k hk
      refine ⟨fun _ => bot_le, ?_⟩
      intro hle
      have hn : k ≤ -(n : ℤ) := hrounds.ge k hk.onGrid hle
      have hless := hlt hk
      omega

/-- The sum of two numbers, packed, is one of the neighbours of their exact sum, an infinity
perhaps. -/
theorem packed_add_ofMagnitude (hbits : 1 < format.exponentBits) (sign other : Sign)
    (hm : Fits format m) (hn : Fits format n) :
  ∃ c : EInt,
    Packed format (unpack format (pack format
      (UnpackedFloat.add format (ofMagnitude format sign m) (ofMagnitude format other n))))
      (some c)
    ∧ ∀ k : ℤ, Fits format k.natAbs →
      (sign.apply m + other.apply n ≤ k → c ≤ (k : EInt))
        ∧ (k ≤ sign.apply m + other.apply n → (k : EInt) ≤ c)
  := by
  obtain ⟨result, v, hsum, hrounds⟩ := add_ofMagnitude sign other hm.onGrid hn.onGrid
  rw [hsum]
  by_cases hv : gridExponent format v + 2 < 2 ^ format.exponentBits
  · have hgrid := hrounds.onGrid
    rw [natAbs_apply] at hgrid
    apply packed_of_fits hbits result hrounds ⟨hgrid, hv⟩
  · apply packed_of_beyond hbits result hrounds (not_lt.mp hv)

/-- What becomes of a sum in its bits. -/
def packedSum (format : Format) (p q : UnpackedFloat) : UnpackedFloat :=
  unpack format (pack format (p.add format q))

theorem packedSum_infinity (hp : p.add format q = .infinity sign) :
  packedSum format p q = .infinity sign
  := by
  unfold packedSum
  rw [hp, unpack_pack_infinity]

theorem packedSum_notANumber (hp : p.add format q = .notANumber) :
  packedSum format p q = .notANumber
  := by
  unfold packedSum
  rw [hp]
  apply unpack_packedNaN

theorem add_infinity_ofMagnitude (infinite sign : Sign) (n : ℕ) :
  UnpackedFloat.add format (.infinity infinite) (ofMagnitude format sign n) = .infinity infinite
    ∧ UnpackedFloat.add format (ofMagnitude format sign n) (.infinity infinite)
      = .infinity infinite
  := by
  unfold ofMagnitude
  split <;> exact ⟨rfl, rfl⟩

theorem add_notANumber (p : UnpackedFloat) :
  p.add format .notANumber = .notANumber
  := by
  cases p <;> rfl

theorem fits_natAbs_apply (sign : Sign) (h : Fits format n) :
  Fits format (sign.apply n).natAbs
  := by
  rw [natAbs_apply]
  apply h

/-- Adding what is not negative does not lead below a number, and adding what is not positive does
not lead above it. -/
def Directed (s t u : Option EInt) : Prop :=
  ∀ c, u = some c → ∃ a b, s = some a ∧ t = some b ∧ (0 ≤ b → a ≤ c) ∧ (b ≤ 0 → c ≤ a)

theorem exists_packedSum_of_notANumber (h : p.add format q = .notANumber) :
  ∃ u, Packed format (packedSum format p q) u ∧ Directed s t u
  := by
  rw [packedSum_notANumber h]
  refine ⟨none, .undefined, ?_⟩
  intro c hc
  cases hc

theorem exists_packedSum_of_infinity {a b : EInt} (h : p.add format q = .infinity sign)
    (ha : a = ⊤ ∧ sign = .positive ∨ a = ⊥ ∧ sign = .negative
      ∨ b = ⊤ ∧ sign = .positive ∨ b = ⊥ ∧ sign = .negative) :
  ∃ u, Packed format (packedSum format p q) u ∧ Directed (some a) (some b) u
  := by
  rw [packedSum_infinity h]
  rcases ha with ⟨rfl, rfl⟩ | ⟨rfl, rfl⟩ | ⟨rfl, rfl⟩ | ⟨rfl, rfl⟩
  · refine ⟨_, .top, ?_⟩
    rintro _ ⟨⟩
    exact ⟨_, _, rfl, rfl, fun _ => le_rfl, fun _ => le_rfl⟩
  · refine ⟨_, .bottom, ?_⟩
    rintro _ ⟨⟩
    exact ⟨_, _, rfl, rfl, fun _ => le_rfl, fun _ => le_rfl⟩
  · refine ⟨_, .top, ?_⟩
    rintro _ ⟨⟩
    exact ⟨_, _, rfl, rfl, fun _ => le_top, fun h => absurd h (by decide)⟩
  · refine ⟨_, .bottom, ?_⟩
    rintro _ ⟨⟩
    exact ⟨_, _, rfl, rfl, fun h => absurd h (by decide), fun _ => bot_le⟩

theorem Packed.exists_packedSum (hbits : 1 < format.exponentBits) (hp : Packed format p s)
    (hq : Packed format q t) :
  ∃ u, Packed format (packedSum format p q) u ∧ Directed s t u
  := by
  cases hp with
  | undefined => apply exists_packedSum_of_notANumber rfl
  | top =>
      cases hq with
      | undefined => apply exists_packedSum_of_notANumber rfl
      | top =>
          apply exists_packedSum_of_infinity (show _ = infinity .positive from rfl) (by simp)
      | bottom => apply exists_packedSum_of_notANumber rfl
      | number other hn =>
          apply exists_packedSum_of_infinity (add_infinity_ofMagnitude _ _ _).1 (by simp)
  | bottom =>
      cases hq with
      | undefined => apply exists_packedSum_of_notANumber rfl
      | top => apply exists_packedSum_of_notANumber rfl
      | bottom =>
          apply exists_packedSum_of_infinity (show _ = infinity .negative from rfl) (by simp)
      | number other hn =>
          apply exists_packedSum_of_infinity (add_infinity_ofMagnitude _ _ _).1 (by simp)
  | number sign hm =>
      cases hq with
      | undefined => apply exists_packedSum_of_notANumber (add_notANumber _)
      | top => apply exists_packedSum_of_infinity (add_infinity_ofMagnitude _ _ _).2 (by simp)
      | bottom => apply exists_packedSum_of_infinity (add_infinity_ofMagnitude _ _ _).2 (by simp)
      | number other hn =>
          obtain ⟨c, hc, hneighbour⟩ := packed_add_ofMagnitude hbits sign other hm hn
          obtain ⟨hle, hge⟩ := hneighbour _ (fits_natAbs_apply sign hm)
          refine ⟨_, hc, ?_⟩
          rintro _ ⟨⟩
          refine ⟨_, _, rfl, rfl, ?_, ?_⟩
          · intro h
            have hother := WithBotTop.coe_le_coe.mp h
            apply hge
            omega
          · intro h
            have hother := WithBotTop.coe_le_coe.mp h
            apply hle
            omega

/-- The negation of a number that is not negative is not positive. -/
theorem Packed.exists_neg (hp : Packed format p s) :
  ∃ t, Packed format p.neg t ∧ ∀ b, t = some b → ∃ a, s = some a ∧ (0 ≤ a → b ≤ 0)
  := by
  cases hp with
  | undefined => exact ⟨_, .undefined, fun b hb => by cases hb⟩
  | top =>
      refine ⟨_, .bottom, ?_⟩
      rintro _ ⟨⟩
      exact ⟨_, rfl, fun _ => bot_le⟩
  | bottom =>
      refine ⟨_, .top, ?_⟩
      rintro _ ⟨⟩
      exact ⟨_, rfl, fun h => absurd h (by decide)⟩
  | number sign hn =>
      rw [neg_ofMagnitude]
      refine ⟨_, .number (-sign) hn, ?_⟩
      rintro _ ⟨⟩
      refine ⟨_, rfl, ?_⟩
      intro h
      have hnonneg := WithBotTop.coe_le_coe.mp h
      rw [neg_apply]
      apply WithBotTop.coe_le_coe.mpr
      omega

/-- The difference to a smaller number is positive. -/
theorem Packed.exists_difference_pos {a b : EInt} (hbits : 1 < format.exponentBits)
    (hp : Packed format p (some a)) (hq : Packed format q (some b)) (h : b < a) :
  ∃ c, Packed format (packedSum format p q.neg) (some c) ∧ 0 < c
  := by
  cases hp with
  | top =>
      refine ⟨⊤, ?_, by decide⟩
      cases hq with
      | top => cases lt_irrefl _ h
      | bottom =>
          rw [packedSum_infinity (show _ = infinity .positive from rfl)]
          apply Packed.top
      | number other hn =>
          rw [neg_ofMagnitude, packedSum_infinity (add_infinity_ofMagnitude _ _ _).1]
          apply Packed.top
  | bottom => cases not_lt_bot h
  | number sign hm =>
      cases hq with
      | top => cases not_top_lt h
      | bottom =>
          refine ⟨⊤, ?_, by decide⟩
          change Packed format (packedSum format _ (infinity .positive)) _
          rw [packedSum_infinity (add_infinity_ofMagnitude _ _ _).2]
          apply Packed.top
      | number other hn =>
          rw [neg_ofMagnitude]
          obtain ⟨c, hc, hneighbour⟩ := packed_add_ofMagnitude hbits sign (-other) hm hn
          have hless := WithBotTop.coe_lt_coe.mp h
          have hge := (hneighbour 1 (fits_one hbits)).2 (by rw [neg_apply]; omega)
          exact ⟨c, hc, lt_of_lt_of_le (by decide) hge⟩

/-- Between finite numbers, the difference to one that is not larger is not negative. -/
theorem Packed.exists_difference_nonneg {a b : EInt} (hbits : 1 < format.exponentBits)
    (hp : Packed format p (some a)) (hq : Packed format q (some b)) (hpfinite : p.isFinite = true)
    (hqfinite : q.isFinite = true) (h : b ≤ a) :
  ∃ c, Packed format (packedSum format p q.neg) (some c) ∧ 0 ≤ c
  := by
  cases hp with
  | top => cases hpfinite
  | bottom => cases hpfinite
  | number sign hm =>
      cases hq with
      | top => cases hqfinite
      | bottom => cases hqfinite
      | number other hn =>
          rw [neg_ofMagnitude]
          obtain ⟨c, hc, hneighbour⟩ := packed_add_ofMagnitude hbits sign (-other) hm hn
          have hle := WithBotTop.coe_le_coe.mp h
          have hge := (hneighbour 0 (fits_of_lt hbits (Nat.two_pow_pos _))).2
            (by rw [neg_apply]; omega)
          exact ⟨c, hc, hge⟩

/-- A difference to a number that is not larger is finite, undefined or too large. -/
theorem Packed.difference_cases {a b : EInt} (hbits : 1 < format.exponentBits)
    (hp : Packed format p (some a)) (hq : Packed format q (some b)) (h : b ≤ a)
    (hinfinite : (packedSum format p q.neg).isFinite = false) :
  packedSum format p q.neg = .notANumber ∨ packedSum format p q.neg = .infinity .positive
  := by
  cases hp with
  | top =>
      cases hq with
      | top => exact Or.inl (packedSum_notANumber rfl)
      | bottom => exact Or.inr (packedSum_infinity rfl)
      | number other hn =>
          rw [neg_ofMagnitude]
          exact Or.inr (packedSum_infinity (add_infinity_ofMagnitude _ _ _).1)
  | bottom =>
      cases hq with
      | top => cases not_lt_of_ge h (by decide)
      | bottom => exact Or.inl (packedSum_notANumber rfl)
      | number other hn => cases not_lt_of_ge h (WithBot.bot_lt_coe _)
  | number sign hm =>
      cases hq with
      | top => cases not_lt_of_ge h (WithBot.coe_lt_coe.mpr (WithTop.coe_lt_top _))
      | bottom => exact Or.inr (packedSum_infinity (add_infinity_ofMagnitude _ _ _).2)
      | number other hn =>
          rw [neg_ofMagnitude] at hinfinite ⊢
          obtain ⟨c, hc, hneighbour⟩ := packed_add_ofMagnitude hbits sign (-other) hm hn
          have hless := WithBotTop.coe_le_coe.mp h
          have hge := (hneighbour 0 (fits_of_lt hbits (Nat.two_pow_pos _))).2
            (by rw [neg_apply]; omega)
          change Packed format (packedSum _ _ _) _ at hc
          generalize packedSum format (ofMagnitude format sign _) (ofMagnitude format (-other) _)
            = difference at hc hinfinite ⊢
          cases hc with
          | top => exact Or.inr rfl
          | bottom => cases not_lt_of_ge hge (by decide)
          | number result hv =>
              rw [isFinite_ofMagnitude] at hinfinite
              cases hinfinite

/-- Nothing is above what is undefined or too large, whatever is taken off. -/
theorem not_lt_of_packedSum (hp : p = .notANumber ∨ p = .infinity .positive)
    (q r : UnpackedFloat) :
  ¬ (packedSum format p q).lt r = true
  := by
  have hnot : ∀ z : UnpackedFloat, z = .notANumber ∨ z = .infinity .positive → ¬ z.lt r = true := by
    rintro z (rfl | rfl) <;> cases r with
    | infinity sign => cases sign <;> decide
    | notANumber => decide
    | zero sign => exact Bool.false_ne_true
    | finite sign m e hm => exact Bool.false_ne_true
  apply hnot
  rcases hp with rfl | rfl
  · exact Or.inl (packedSum_notANumber rfl)
  · cases q with
    | infinity sign =>
        cases sign with
        | positive => exact Or.inr (packedSum_infinity rfl)
        | negative => exact Or.inl (packedSum_notANumber rfl)
    | notANumber => exact Or.inl (packedSum_notANumber rfl)
    | zero sign => exact Or.inr (packedSum_infinity rfl)
    | finite sign m e hm => exact Or.inr (packedSum_infinity rfl)

/-! ### Formatted numbers -/

/-- Numbers that are kept in the bits of a format, with the operations of that format. -/
structure Formatted (F : Type) [Scalar F] where
  format : Format
  exponentBits : 1 < format.exponentBits
  unpack : F → UnpackedFloat
  ofUnpacked : UnpackedFloat → F
  unpack_ofUnpacked : ∀ p, unpack (ofUnpacked p) = UnpackedFloat.unpack format (pack format p)
  bits : ∀ x, ∃ b : BitVec format.numBits, unpack x = UnpackedFloat.unpack format b
  zero : unpack 0 = .zero .positive
  lt_iff : ∀ x y : F, x < y ↔ (unpack x).lt (unpack y) = true
  le_iff : ∀ x y : F, x ≤ y ↔ (unpack x).le (unpack y) = true
  beq_zero : ∀ x : F, (x == 0) = (unpack x).beq (.zero .positive)
  isFinite : ∀ x : F, Scalar.isFinite x = (unpack x).isFinite
  isNaN : ∀ x : F, Scalar.isNaN x = (unpack x).isNaN
  add : ∀ x y : F, x + y = ofUnpacked ((unpack x).add format (unpack y))
  mul : ∀ x y : F, x * y = ofUnpacked ((unpack x).mul format (unpack y))
  sub : ∀ x y : F, unpack (x - y)
    = UnpackedFloat.unpack format (pack format ((unpack x).sub format (unpack y)))
  neg : ∀ x : F, unpack (-x) = UnpackedFloat.unpack format (pack format (unpack x).neg)

/-- Doubles are formatted. -/
def Formatted.double : Formatted Float where
  format := .binary64
  exponentBits := by decide
  unpack x := x.toModel.unpack
  ofUnpacked p := .ofModel (.pack p)
  unpack_ofUnpacked _ := rfl
  bits x := ⟨x.toModel.toBits.toBitVec, rfl⟩
  zero := rfl
  lt_iff _ _ := decide_eq_true_iff
  le_iff _ _ := decide_eq_true_iff
  beq_zero _ := rfl
  isFinite _ := rfl
  isNaN _ := rfl
  add _ _ := rfl
  mul _ _ := rfl
  sub _ _ := rfl
  neg _ := rfl

/-- Single precision numbers are formatted. -/
def Formatted.single : Formatted Float32 where
  format := .binary32
  exponentBits := by decide
  unpack x := x.toModel.unpack
  ofUnpacked p := .ofModel (.pack p)
  unpack_ofUnpacked _ := rfl
  bits x := ⟨x.toModel.toBits.toBitVec, rfl⟩
  zero := rfl
  lt_iff _ _ := decide_eq_true_iff
  le_iff _ _ := decide_eq_true_iff
  beq_zero _ := rfl
  isFinite _ := rfl
  isNaN _ := rfl
  add _ _ := rfl
  mul _ _ := rfl
  sub _ _ := rfl
  neg _ := rfl

namespace Formatted

variable {F : Type} [Scalar F] (formatted : Formatted F) {l u x y z : F}

theorem exists_packed (x : F) :
  ∃ s, Packed formatted.format (formatted.unpack x) s
  := by
  obtain ⟨b, hb⟩ := formatted.bits x
  rw [hb]
  apply MachineNumber.exists_packed formatted.exponentBits

theorem packed_zero :
  Packed formatted.format (formatted.unpack 0) (some 0)
  := by
  have hzero := Packed.number .positive
    (fits_of_lt formatted.exponentBits (Nat.two_pow_pos formatted.format.mantissaBits))
  rw [ofMagnitude_zero] at hzero
  rw [formatted.zero]
  apply hzero

theorem unpack_add (x y : F) :
  formatted.unpack (x + y)
    = packedSum formatted.format (formatted.unpack x) (formatted.unpack y)
  := by
  rw [formatted.add, formatted.unpack_ofUnpacked]
  rfl

theorem unpack_sub (x y : F) :
  formatted.unpack (x - y)
    = packedSum formatted.format (formatted.unpack x) (formatted.unpack y).neg
  := by
  rw [formatted.sub, sub_eq_add_neg]
  rfl

include formatted

theorem lt_of_add_lt (hz : 0 ≤ z) (h : u + z < x) :
  u < x
  := by
  obtain ⟨s, hs⟩ := formatted.exists_packed u
  obtain ⟨t, ht⟩ := formatted.exists_packed z
  obtain ⟨r, hr⟩ := formatted.exists_packed x
  obtain ⟨w, hw, hdirected⟩ := hs.exists_packedSum formatted.exponentBits ht
  rw [formatted.le_iff, formatted.packed_zero.le_iff ht] at hz
  obtain ⟨_, c, ⟨⟩, rfl, hnonneg⟩ := hz
  rw [formatted.lt_iff, formatted.unpack_add] at h
  obtain ⟨d, e, rfl, rfl, hlt⟩ := (hw.lt_iff hr).mp h
  obtain ⟨a, _, rfl, ⟨⟩, hge, -⟩ := hdirected d rfl
  rw [formatted.lt_iff, hs.lt_iff hr]
  exact ⟨a, e, rfl, rfl, (hge hnonneg).trans_lt hlt⟩

theorem lt_of_lt_sub (hz : 0 ≤ z) (h : x < l - z) :
  x < l
  := by
  obtain ⟨s, hs⟩ := formatted.exists_packed l
  obtain ⟨t, ht⟩ := formatted.exists_packed z
  obtain ⟨r, hr⟩ := formatted.exists_packed x
  obtain ⟨t', ht', hneg⟩ := ht.exists_neg
  obtain ⟨w, hw, hdirected⟩ := hs.exists_packedSum formatted.exponentBits ht'
  rw [formatted.le_iff, formatted.packed_zero.le_iff ht] at hz
  obtain ⟨_, c, ⟨⟩, rfl, hnonneg⟩ := hz
  rw [formatted.lt_iff, formatted.unpack_sub] at h
  obtain ⟨d, e, rfl, rfl, hlt⟩ := (hr.lt_iff hw).mp h
  obtain ⟨a, b, rfl, rfl, -, hle⟩ := hdirected e rfl
  obtain ⟨_, ⟨⟩, hnonpos⟩ := hneg b rfl
  rw [formatted.lt_iff, hr.lt_iff hs]
  exact ⟨d, a, rfl, rfl, hlt.trans_le (hle (hnonpos hnonneg))⟩

theorem sub_pos (h : x < y) :
  0 < y - x
  := by
  obtain ⟨s, hs⟩ := formatted.exists_packed x
  obtain ⟨t, ht⟩ := formatted.exists_packed y
  rw [formatted.lt_iff, hs.lt_iff ht] at h
  obtain ⟨a, b, rfl, rfl, hlt⟩ := h
  obtain ⟨c, hc, hpos⟩ := ht.exists_difference_pos formatted.exponentBits hs hlt
  rw [formatted.lt_iff, formatted.unpack_sub, formatted.packed_zero.lt_iff hc]
  exact ⟨0, c, rfl, rfl, hpos⟩

theorem not_sub_lt (hle : l ≤ u) (hinfinite : Scalar.isFinite (u - l) = false) :
  ¬ u - l - x < y
  := by
  obtain ⟨s, hs⟩ := formatted.exists_packed l
  obtain ⟨t, ht⟩ := formatted.exists_packed u
  rw [formatted.le_iff, hs.le_iff ht] at hle
  obtain ⟨a, b, rfl, rfl, hab⟩ := hle
  rw [formatted.isFinite, formatted.unpack_sub] at hinfinite
  rw [formatted.lt_iff, formatted.unpack_sub, formatted.unpack_sub]
  apply not_lt_of_packedSum
  apply ht.difference_cases formatted.exponentBits hs hab hinfinite

theorem neg_beq_zero (x : F) :
  (-x == 0) = (x == 0)
  := by
  obtain ⟨s, hs⟩ := formatted.exists_packed x
  obtain ⟨t, ht, -⟩ := hs.exists_neg
  rw [formatted.beq_zero, formatted.beq_zero, formatted.neg, ht.unpack_pack formatted.exponentBits,
    beq_zero_neg]

/-- What is at most the magnitude of a zero is at most zero. -/
theorem le_zero (hzero : (x == 0) = true) (h : y ≤ Scalar.magnitude x) :
  y ≤ 0
  := by
  rw [formatted.beq_zero] at hzero
  obtain ⟨sign, hsign⟩ := exists_eq_zero hzero
  have hnonneg : ¬ x < 0 := by
    rw [formatted.lt_iff, hsign, formatted.zero]
    apply not_zero_lt_zero
  unfold Scalar.magnitude at h
  rw [if_neg hnonneg, formatted.le_iff, hsign] at h
  rw [formatted.le_iff, formatted.zero]
  apply le_zero_of_le_zero h

/-- What is finite and not negative is at least zero. -/
theorem nonneg_of_not_neg (hfinite : Scalar.isFinite x = true) (h : ¬ x < 0) :
  0 ≤ x
  := by
  obtain ⟨s, hs⟩ := formatted.exists_packed x
  rw [formatted.lt_iff, hs.lt_iff formatted.packed_zero] at h
  rw [formatted.isFinite] at hfinite
  rw [formatted.le_iff, formatted.packed_zero.le_iff hs]
  cases s with
  | none =>
      generalize formatted.unpack x = p at hs hfinite
      cases hs
      cases hfinite
  | some a =>
      refine ⟨0, a, rfl, rfl, ?_⟩
      by_contra hneg
      exact h ⟨a, 0, rfl, rfl, not_le.mp hneg⟩

theorem not_neg_of_nonneg (h : 0 ≤ x) :
  ¬ x < 0
  := by
  obtain ⟨s, hs⟩ := formatted.exists_packed x
  rw [formatted.le_iff, formatted.packed_zero.le_iff hs] at h
  obtain ⟨_, a, ⟨⟩, rfl, hnonneg⟩ := h
  rw [formatted.lt_iff, hs.lt_iff formatted.packed_zero]
  rintro ⟨_, _, ⟨⟩, ⟨⟩, hneg⟩
  apply not_le.mpr hneg hnonneg

theorem isFinite_zero :
  Scalar.isFinite (0 : F) = true
  := by
  rw [formatted.isFinite, formatted.zero]
  rfl

theorem isFinite_neg (x : F) :
  Scalar.isFinite (-x) = Scalar.isFinite x
  := by
  obtain ⟨s, hs⟩ := formatted.exists_packed x
  obtain ⟨t, ht, -⟩ := hs.exists_neg
  rw [formatted.isFinite, formatted.isFinite, formatted.neg,
    ht.unpack_pack formatted.exponentBits]
  cases formatted.unpack x <;> rfl

theorem isNaN_of_isFinite (h : Scalar.isFinite x = true) :
  Scalar.isNaN x = false
  := by
  rw [formatted.isFinite] at h
  rw [formatted.isNaN]
  cases hx : formatted.unpack x with
  | notANumber =>
      rw [hx] at h
      cases h
  | infinity sign => rfl
  | zero sign => rfl
  | finite sign m e hm => rfl

/-- Nothing undefined is at least zero. -/
theorem isNaN_of_nonneg (h : 0 ≤ x) :
  Scalar.isNaN x = false
  := by
  rw [formatted.le_iff, formatted.zero] at h
  rw [formatted.isNaN]
  cases hx : formatted.unpack x with
  | notANumber =>
      rw [hx] at h
      cases h
  | infinity sign => rfl
  | zero sign => rfl
  | finite sign m e hm => rfl

/-- A difference to a smaller number or the same one is not negative, zero being a number that the
sum is rounded to. -/
theorem sub_nonneg (hl : Scalar.isFinite l = true) (hu : Scalar.isFinite u = true) (h : l ≤ u) :
  0 ≤ u - l
  := by
  obtain ⟨s, hs⟩ := formatted.exists_packed l
  obtain ⟨t, ht⟩ := formatted.exists_packed u
  rw [formatted.le_iff, hs.le_iff ht] at h
  obtain ⟨a, b, rfl, rfl, hab⟩ := h
  rw [formatted.isFinite] at hl hu
  obtain ⟨c, hc, hpos⟩ := ht.exists_difference_nonneg formatted.exponentBits hs hu hl hab
  rw [formatted.le_iff, formatted.unpack_sub, formatted.packed_zero.le_iff hc]
  exact ⟨0, c, rfl, rfl, hpos⟩

end Formatted

/-! ### Conversions -/

/-- Rounding keeps the sign. -/
theorem roundWithAccuracy_cases (format : Format) (sign : Sign) (mantissa : ℕ) (exponent : ℤ) :
  roundWithAccuracy format sign mantissa exponent .exact = .zero sign
    ∨ ∃ m e hm, roundWithAccuracy format sign mantissa exponent .exact = .finite sign m e hm
  := by
  unfold roundWithAccuracy
  dsimp only
  split
  · exact Or.inl rfl
  · rename_i hne
    exact Or.inr ⟨_, _, Nat.pos_of_ne_zero hne, rfl⟩

theorem unpack_packComponents_cases {exponent : BitVec format.exponentBits}
    (h : exponent ≠ -1#_) (sign : Sign) (mantissa : BitVec format.mantissaBitsWithoutImplicit) :
  unpack format (packComponents format sign exponent mantissa) = .zero sign
    ∨ ∃ m e hm, unpack format (packComponents format sign exponent mantissa)
      = .finite sign m e hm
  := by
  unfold unpack
  simp only [unpackMantissa_packComponents, unpackExponent_packComponents, unpackSign_packComponents,
    Sign.ofBitVec_toBitVec, if_neg h]
  split
  · split
    · exact Or.inl rfl
    · rename_i hne
      exact Or.inr ⟨_, _, BitVec.toNat_pos_of_ne_zero hne, rfl⟩
  · refine Or.inr ⟨_, _, ?_, rfl⟩
    simp [BitVec.toNat_append, Nat.pos_iff_ne_zero]

/-- What is packed as a positive number is not negative in any format. -/
theorem nonneg_unpack_pack (hbits : 1 < format.exponentBits) (m : ℕ) (e : ℤ) (hm : 0 < m) :
  UnpackedFloat.le (.zero .positive) (unpack format (pack format (.finite .positive m e hm)))
    = true
  := by
  have hfour := four_le_two_pow hbits
  have hnonneg {exponent : BitVec format.exponentBits} (h : exponent ≠ -1#_)
      (mantissa : BitVec format.mantissaBitsWithoutImplicit) :
      UnpackedFloat.le (.zero .positive)
        (unpack format (packComponents format .positive exponent mantissa)) = true := by
    rcases unpack_packComponents_cases h .positive mantissa with h | ⟨m, e, hm, h⟩
    · rw [h]
      rfl
    · rw [h]
      rfl
  unfold pack
  dsimp only
  split
  · change UnpackedFloat.le _ (unpack format (pack format (.infinity .positive))) = true
    rw [unpack_pack_infinity]
    rfl
  · split
    · apply hnonneg (ofNat_ne_negOne (by omega))
    · apply hnonneg (ofNat_ne_negOne (by omega))

theorem unpack_pack_zero (hbits : 1 < format.exponentBits) (sign : Sign) :
  unpack format (pack format (.zero sign)) = .zero sign
  := by
  have hzero := unpack_pack_ofMagnitude hbits sign (fits_of_lt hbits (Nat.two_pow_pos _))
  rwa [ofMagnitude_zero] at hzero

/-- What is rounded to a number that is not negative is not negative after packing. -/
theorem nonneg_roundWithAccuracy (hbits : 1 < format.exponentBits) (m : ℕ) (e : ℤ) :
  UnpackedFloat.le (.zero .positive)
    (unpack format (pack format (roundWithAccuracy format .positive m e .exact))) = true
  := by
  rcases roundWithAccuracy_cases format .positive m e with hround | ⟨m, e, hm, hround⟩
  · rw [hround, unpack_pack_zero hbits]
    rfl
  · rw [hround]
    apply nonneg_unpack_pack hbits

/-- The conversion of a double that is finite and not negative. -/
theorem nonneg_nearestSingle {x : Float} (hfinite : x.isFinite = true) (h : ¬ x < 0) :
  0 ≤ nearestSingle x
  := by
  change x.toModel.unpack.isFinite = true at hfinite
  rw [Formatted.double.lt_iff] at h
  change ¬ UnpackedFloat.lt x.toModel.unpack (.zero .positive) = true at h
  rw [Formatted.single.le_iff]
  unfold nearestSingle
  cases hx : x.toModel.unpack with
  | notANumber =>
      rw [hx] at hfinite
      cases hfinite
  | infinity sign =>
      rw [hx] at hfinite
      cases hfinite
  | zero sign => cases sign <;> decide +kernel
  | finite sign mantissa exponent hmantissa =>
      cases sign with
      | negative =>
          rw [hx] at h
          cases h rfl
      | positive =>
          change UnpackedFloat.le (.zero .positive) (unpack .binary32 (pack .binary32
            (UnpackedFloat.round .binary32 .positive mantissa exponent))) = true
          apply nonneg_roundWithAccuracy (by decide)

end MachineNumber

/-! ### Scalars -/

instance : RoundedScalar Float where
  lt_of_lt_sub ht h := MachineNumber.Formatted.double.lt_of_lt_sub ht h
  lt_of_add_lt ht h := MachineNumber.Formatted.double.lt_of_add_lt ht h
  sub_pos h := MachineNumber.Formatted.double.sub_pos h
  not_sub_lt hle hinfinite _ _ := MachineNumber.Formatted.double.not_sub_lt hle hinfinite
  ofFloat_nonneg hfinite h := MachineNumber.Formatted.double.nonneg_of_not_neg hfinite h

instance : RoundedScalar Float32 where
  lt_of_lt_sub ht h := MachineNumber.Formatted.single.lt_of_lt_sub ht h
  lt_of_add_lt ht h := MachineNumber.Formatted.single.lt_of_add_lt ht h
  sub_pos h := MachineNumber.Formatted.single.sub_pos h
  not_sub_lt hle hinfinite _ _ := MachineNumber.Formatted.single.not_sub_lt hle hinfinite
  ofFloat_nonneg hfinite h := MachineNumber.nonneg_nearestSingle hfinite h

instance : MeasuredScalar Float where
  isFinite_zero := MachineNumber.Formatted.double.isFinite_zero
  isFinite_neg := MachineNumber.Formatted.double.isFinite_neg
  isNaN_of_isFinite := MachineNumber.Formatted.double.isNaN_of_isFinite
  isNaN_of_nonneg := MachineNumber.Formatted.double.isNaN_of_nonneg
  sub_nonneg := MachineNumber.Formatted.double.sub_nonneg

instance : MeasuredScalar Float32 where
  isFinite_zero := MachineNumber.Formatted.single.isFinite_zero
  isFinite_neg := MachineNumber.Formatted.single.isFinite_neg
  isNaN_of_isFinite := MachineNumber.Formatted.single.isNaN_of_isFinite
  isNaN_of_nonneg := MachineNumber.Formatted.single.isNaN_of_nonneg
  sub_nonneg := MachineNumber.Formatted.single.sub_nonneg

instance : SymmetricZero Float where
  neg_beq_zero := MachineNumber.Formatted.double.neg_beq_zero
  le_zero := MachineNumber.Formatted.double.le_zero

instance : SymmetricZero Float32 where
  neg_beq_zero := MachineNumber.Formatted.single.neg_beq_zero
  le_zero := MachineNumber.Formatted.single.le_zero

end RevisedSimplex
