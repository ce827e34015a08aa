import RevisedSimplex.Proofs.MachineNumbers

/-!
# Rounding

Rounding takes a magnitude to a neighbour of it among the numbers of a format: to nothing beyond a
number of the format that is at least as large, and to nothing below one that is at most as large.
`IsNeighbour` says this of the multiples of a power of two and `RoundsTo` of all numbers of a
format, with signs; `IsNearest` says which of the two neighbours it is.

The mantissa is shifted to the exponent of the format and rounded by the bits that fall off, and
shifted once more if it was carried to the next power of two.  No shift but the first one loses
anything, so the result is a neighbour, and so are sums.
-/

namespace RevisedSimplex

namespace MachineNumber

open Float.Model (Format UnpackedFloat totalExponent)
open Float.Model.UnpackedFloat

variable {format : Format} {m n k v a g : ℕ}

/-! ### Neighbours -/

/-- `v` is a neighbour of `n` among the multiples of `2 ^ g`. -/
structure IsNeighbour (g n v : ℕ) : Prop where
  dvd : 2 ^ g ∣ v
  le : ∀ c, 2 ^ g ∣ c → n ≤ c → v ≤ c
  ge : ∀ c, 2 ^ g ∣ c → c ≤ n → c ≤ v

theorem isNeighbour_of_le {r : ℕ} (hlow : n / 2 ^ g ≤ r) (hhigh : r ≤ n / 2 ^ g + 1)
    (hexact : 2 ^ g ∣ n → r = n / 2 ^ g) :
  IsNeighbour g n (r * 2 ^ g)
  := by
  have hpos := Nat.two_pow_pos g
  constructor
  case dvd => apply Nat.dvd_mul_left
  case le =>
    rintro _ ⟨c, rfl⟩ hle
    rw [Nat.mul_comm (2 ^ g)] at hle ⊢
    apply Nat.mul_le_mul_right
    by_cases hdvd : 2 ^ g ∣ n
    · rw [hexact hdvd]
      apply Nat.div_le_of_le_mul
      rwa [Nat.mul_comm]
    · have hne : n ≠ c * 2 ^ g := fun h => hdvd ⟨c, h.trans (Nat.mul_comm _ _)⟩
      have hlt := (Nat.div_lt_iff_lt_mul hpos).mpr (lt_of_le_of_ne hle hne)
      omega
  case ge =>
    rintro _ ⟨c, rfl⟩ hle
    rw [Nat.mul_comm (2 ^ g)] at hle ⊢
    apply Nat.mul_le_mul_right
    apply ((Nat.le_div_iff_mul_le hpos).mpr hle).trans hlow

theorem IsNeighbour.mul_two_pow (h : IsNeighbour g n v) (a : ℕ) :
  IsNeighbour (g + a) (n * 2 ^ a) (v * 2 ^ a)
  := by
  have hpos := Nat.two_pow_pos a
  constructor
  case dvd =>
    rw [pow_add]
    apply Nat.mul_dvd_mul_right h.dvd
  case le =>
    rintro _ ⟨c, rfl⟩ hle
    rw [pow_add, Nat.mul_right_comm, Nat.mul_le_mul_right_iff hpos] at hle ⊢
    apply h.le _ (Nat.dvd_mul_right _ _) hle
  case ge =>
    rintro _ ⟨c, rfl⟩ hle
    rw [pow_add, Nat.mul_right_comm, Nat.mul_le_mul_right_iff hpos] at hle ⊢
    apply h.ge _ (Nat.dvd_mul_right _ _) hle

/-- `v` is the multiple of `2 ^ g` nearest to `n`, the even one of two that are as near. -/
structure IsNearest (g n v : ℕ) : Prop extends IsNeighbour g n v where
  down : 2 * (n % 2 ^ g) < 2 ^ g → v ≤ n
  up : 2 ^ g < 2 * (n % 2 ^ g) → n ≤ v
  even : 2 * (n % 2 ^ g) = 2 ^ g → 2 ^ (g + 1) ∣ v

theorem IsNearest.mul_two_pow (h : IsNearest g n v) (a : ℕ) :
  IsNearest (g + a) (n * 2 ^ a) (v * 2 ^ a)
  := by
  have hpos := Nat.two_pow_pos a
  have hrest : 2 * (n * 2 ^ a % 2 ^ (g + a)) = 2 * (n % 2 ^ g) * 2 ^ a := by
    rw [pow_add, Nat.mul_mod_mul_right, Nat.mul_assoc]
  constructor
  case toIsNeighbour => apply h.toIsNeighbour.mul_two_pow
  case down =>
    intro hlt
    rw [hrest, pow_add, Nat.mul_lt_mul_right hpos] at hlt
    apply Nat.mul_le_mul_right _ (h.down hlt)
  case up =>
    intro hlt
    rw [hrest, pow_add, Nat.mul_lt_mul_right hpos] at hlt
    apply Nat.mul_le_mul_right _ (h.up hlt)
  case even =>
    intro heq
    rw [hrest, pow_add, Nat.mul_right_cancel_iff hpos] at heq
    rw [Nat.add_right_comm, pow_add]
    apply Nat.mul_dvd_mul_right (h.even heq)

/-- A neighbour stays between the powers of two around a magnitude. -/
theorem IsNeighbour.log2_bounds (h : IsNeighbour (gridExponent format n) n v) (hn : n ≠ 0) :
  2 ^ n.log2 ≤ v ∧ v ≤ 2 ^ (n.log2 + 1)
  := by
  have hle := gridExponent_le_log2 format n
  constructor
  · apply h.ge _ (Nat.pow_dvd_pow 2 hle) (Nat.log2_self_le hn)
  · apply h.le _ (Nat.pow_dvd_pow 2 (hle.trans (Nat.le_succ _))) Nat.lt_log2_self.le

theorem IsNeighbour.ne_zero (h : IsNeighbour (gridExponent format n) n v) (hn : n ≠ 0) :
  v ≠ 0
  := by
  have hpos := Nat.two_pow_pos n.log2
  apply (hpos.trans_le (h.log2_bounds hn).1).ne'

theorem IsNeighbour.gridExponent_le (h : IsNeighbour (gridExponent format n) n v) (hn : n ≠ 0) :
  gridExponent format n ≤ gridExponent format v
  := by
  have hlog := (Nat.le_log2 (h.ne_zero hn)).mpr (h.log2_bounds hn).1
  unfold gridExponent
  omega

/-- What is rounded is on the grid, also when it is carried to the next power of two. -/
theorem IsNeighbour.onGrid (h : IsNeighbour (gridExponent format n) n v) (hn : n ≠ 0) :
  OnGrid format v
  := by
  obtain ⟨hlow, hhigh⟩ := h.log2_bounds hn
  unfold OnGrid
  rcases hhigh.lt_or_eq with hlt | heq
  · have hlog := (Nat.log2_eq_iff (h.ne_zero hn)).mpr ⟨hlow, hlt⟩
    unfold gridExponent
    rw [hlog]
    apply h.dvd
  · rw [heq]
    apply Nat.pow_dvd_pow
    apply (gridExponent_le_log2 format _).trans
    rw [Nat.log2_two_pow]

/-- A neighbour is at most a larger number of the format. -/
theorem IsNeighbour.le_of_onGrid (h : IsNeighbour (gridExponent format n) n v)
    (hk : OnGrid format k) (hle : n ≤ k) :
  v ≤ k
  := h.le k ((Nat.pow_dvd_pow 2 (gridExponent_mono hle)).trans hk) hle

/-- A neighbour is at least a smaller number of the format. -/
theorem IsNeighbour.ge_of_onGrid (h : IsNeighbour (gridExponent format n) n v) (hn : n ≠ 0)
    (hk : OnGrid format k) (hle : k ≤ n) :
  k ≤ v
  := by
  rcases (log2_mono hle).lt_or_eq with hlt | heq
  · have hk : k < 2 ^ n.log2 := by
      apply Nat.lt_log2_self.trans_le
      apply Nat.pow_le_pow_right Nat.zero_lt_two hlt
    apply hk.le.trans (h.log2_bounds hn).1
  · unfold OnGrid gridExponent at hk
    rw [heq] at hk
    apply h.ge k hk hle

/-! ### Mantissas -/

theorem ExtendedMantissa.le_roundedMantissa (em : ExtendedMantissa) :
  em.mantissa ≤ em.roundedMantissa ∧ em.roundedMantissa ≤ em.mantissa + 1
  := by
  obtain ⟨mantissa, roundBit, stickyBit⟩ := em
  have hmod := Nat.mod_lt mantissa Nat.zero_lt_two
  cases roundBit <;> cases stickyBit <;>
    simp only [ExtendedMantissa.roundedMantissa, ExtendedMantissa.accuracy,
      Accuracy.roundToNearestEven] <;> omega

/-- What is left of a mantissa that is shifted. -/
theorem shiftRight_mantissa (m : ℕ) :
    ∀ n, (ExtendedMantissa.ofMantissaAndAccuracy m .exact >>> n).mantissa = m / 2 ^ n
  | 0 => (Nat.div_one m).symm
  | n + 1 => by
      change (ExtendedMantissa.ofMantissaAndAccuracy m .exact >>> n).mantissa / 2 = _
      rw [shiftRight_mantissa m n, Nat.div_div_eq_div_mul, pow_succ]

/-- The last bit that is shifted out of a mantissa, and whether one before it is set. -/
theorem shiftRight_bits (m : ℕ) :
    ∀ n, (ExtendedMantissa.ofMantissaAndAccuracy m .exact >>> (n + 1)).roundBit
        = (m / 2 ^ n % 2 != 0)
      ∧ (ExtendedMantissa.ofMantissaAndAccuracy m .exact >>> (n + 1)).stickyBit
        = (m % 2 ^ n != 0)
  | 0 => by
      rw [pow_zero, Nat.div_one, Nat.mod_one]
      exact ⟨rfl, rfl⟩
  | n + 1 => by
      obtain ⟨hround, hsticky⟩ := shiftRight_bits m n
      constructor
      · change ((ExtendedMantissa.ofMantissaAndAccuracy m .exact >>> (n + 1)).mantissa % 2 != 0)
          = _
        rw [shiftRight_mantissa]
      · change ((ExtendedMantissa.ofMantissaAndAccuracy m .exact >>> (n + 1)).roundBit
            || (ExtendedMantissa.ofMantissaAndAccuracy m .exact >>> (n + 1)).stickyBit) = _
        rw [hround, hsticky, Nat.mod_pow_succ]
        rcases Nat.mod_two_eq_zero_or_one (m / 2 ^ n) with hzero | hone
        · rw [hzero, Nat.mul_zero, Nat.add_zero]
          rfl
        · simp [hone]

/-- A mantissa that is shifted is rounded by what is shifted out, compared with one half. -/
theorem roundedMantissa_shiftRight (m n : ℕ) :
  (2 * (m % 2 ^ n) < 2 ^ n
      → (ExtendedMantissa.ofMantissaAndAccuracy m .exact >>> n).roundedMantissa = m / 2 ^ n)
    ∧ (2 ^ n < 2 * (m % 2 ^ n)
      → (ExtendedMantissa.ofMantissaAndAccuracy m .exact >>> n).roundedMantissa = m / 2 ^ n + 1)
    ∧ (2 * (m % 2 ^ n) = 2 ^ n
      → (ExtendedMantissa.ofMantissaAndAccuracy m .exact >>> n).roundedMantissa
        = m / 2 ^ n + m / 2 ^ n % 2)
  := by
  cases n with
  | zero =>
      rw [pow_zero, Nat.mod_one, Nat.div_one]
      exact ⟨fun _ => rfl, fun h => by omega, fun h => by omega⟩
  | succ n =>
      obtain ⟨hround, hsticky⟩ := shiftRight_bits m n
      have hmantissa := shiftRight_mantissa m (n + 1)
      have hlow := Nat.mod_lt m (Nat.two_pow_pos n)
      generalize ExtendedMantissa.ofMantissaAndAccuracy m .exact >>> (n + 1) = shifted at *
      obtain ⟨mantissa, roundBit, stickyBit⟩ := shifted
      dsimp only at hround hsticky hmantissa
      have hrest : m % 2 ^ (n + 1) = m % 2 ^ n + 2 ^ n * (m / 2 ^ n % 2) := Nat.mod_pow_succ
      have hpow : 2 ^ (n + 1) = 2 * 2 ^ n := Nat.pow_succ'
      rw [← hmantissa, hrest, hpow]
      unfold ExtendedMantissa.roundedMantissa ExtendedMantissa.accuracy
      cases roundBit with
      | false =>
          have hzero : m / 2 ^ n % 2 = 0 := by simpa using hround.symm
          rw [hzero]
          cases stickyBit <;> refine ⟨fun _ => rfl, fun h => ?_, fun h => ?_⟩ <;> omega
      | true =>
          have hone : m / 2 ^ n % 2 = 1 := by
            have hne : m / 2 ^ n % 2 ≠ 0 := by simpa using hround.symm
            omega
          rw [hone]
          cases stickyBit with
          | false =>
              have hexact : m % 2 ^ n = 0 := by simpa using hsticky.symm
              refine ⟨fun h => ?_, fun h => ?_, fun _ => rfl⟩ <;> omega
          | true =>
              have hinexact : m % 2 ^ n ≠ 0 := by simpa using hsticky.symm
              refine ⟨fun h => ?_, fun _ => rfl, fun h => ?_⟩ <;> omega

/-- A mantissa that is shifted and rounded. -/
theorem isNearest_roundedMantissa (m n : ℕ) :
  IsNearest n m ((ExtendedMantissa.ofMantissaAndAccuracy m .exact >>> n).roundedMantissa * 2 ^ n)
  := by
  obtain ⟨hlow, hhigh⟩ := ExtendedMantissa.le_roundedMantissa
    (ExtendedMantissa.ofMantissaAndAccuracy m .exact >>> n)
  obtain ⟨hdown, hup, heven⟩ := roundedMantissa_shiftRight m n
  rw [shiftRight_mantissa] at hlow hhigh
  have hsplit := Nat.div_add_mod' m (2 ^ n)
  have hrest := Nat.mod_lt m (Nat.two_pow_pos n)
  constructor
  case toIsNeighbour =>
    apply isNeighbour_of_le hlow hhigh
    intro hdvd
    apply hdown
    rw [Nat.mod_eq_zero_of_dvd hdvd]
    apply Nat.two_pow_pos
  case down =>
    intro hlt
    rw [hdown hlt]
    apply Nat.div_mul_le_self
  case up =>
    intro hlt
    rw [hup hlt, Nat.succ_mul]
    omega
  case even =>
    intro heq
    rw [heven heq, pow_succ, Nat.mul_comm (2 ^ n)]
    apply Nat.mul_dvd_mul_right
    omega

theorem targetExponent_eq (format : Format) (hm : m ≠ 0) (a : ℕ) :
  format.targetExponent (totalExponent m (format.minExponent + a))
    = format.minExponent + gridExponent format (m * 2 ^ a)
  := by
  unfold Format.targetExponent totalExponent gridExponent
  rw [log2_mul_two_pow hm]
  omega

theorem shiftToTargetExponent_eq (hm : m ≠ 0) (ha : a ≤ gridExponent format (m * 2 ^ a)) :
  shiftToTargetExponent format m (format.minExponent + a) .exact
    = (ExtendedMantissa.ofMantissaAndAccuracy m .exact
        >>> (gridExponent format (m * 2 ^ a) - a),
      format.minExponent + gridExponent format (m * 2 ^ a))
  := by
  unfold shiftToTargetExponent shiftToExponent
  rw [targetExponent_eq format hm]
  have hshift : (format.minExponent + gridExponent format (m * 2 ^ a)
      - (format.minExponent + a)).toNat = gridExponent format (m * 2 ^ a) - a := by
    omega
  dsimp only
  rw [hshift, Prod.mk_inj]
  refine ⟨rfl, by omega⟩

/-- A mantissa that is not too coarse is rounded to a neighbour. -/
theorem roundWithAccuracy_eq (format : Format) (sign : Sign) (hm : m ≠ 0) (a : ℕ)
    (ha : a ≤ gridExponent format (m * 2 ^ a)) :
  ∃ v, IsNearest (gridExponent format (m * 2 ^ a)) (m * 2 ^ a) v
    ∧ roundWithAccuracy format sign m (format.minExponent + a) .exact = ofMagnitude format sign v
  := by
  have hne : m * 2 ^ a ≠ 0 := Nat.mul_ne_zero hm (Nat.two_pow_pos a).ne'
  have hfirst := shiftToTargetExponent_eq hm ha
  obtain ⟨g, hg⟩ : ∃ g, gridExponent format (m * 2 ^ a) = g := ⟨_, rfl⟩
  rw [hg] at hfirst ha ⊢
  obtain ⟨r, hr⟩ : ∃ r, (ExtendedMantissa.ofMantissaAndAccuracy m .exact
      >>> (g - a)).roundedMantissa = r := ⟨_, rfl⟩
  have hneighbour : IsNearest g (m * 2 ^ a) (r * 2 ^ g) := by
    have hscaled := (isNearest_roundedMantissa m (g - a)).mul_two_pow a
    rwa [hr, Nat.mul_assoc, ← pow_add, Nat.sub_add_cancel ha] at hscaled
  rw [← hg] at hneighbour
  have hle := hneighbour.gridExponent_le hne
  have hr0 : r ≠ 0 := fun h => hneighbour.ne_zero hne (by rw [h, Nat.zero_mul])
  rw [hg] at hneighbour hle
  refine ⟨_, hneighbour, ?_⟩
  unfold roundWithAccuracy
  rw [hfirst]
  dsimp only
  -- The second shift drops a zero at most: what it shifts is on the grid already.
  rw [hr, shiftToTargetExponent_eq hr0 hle]
  obtain ⟨t, ht⟩ := Nat.exists_eq_add_of_le' hle
  have hmantissa : (ExtendedMantissa.ofMantissaAndAccuracy r .exact
      >>> (gridExponent format (r * 2 ^ g) - g)).mantissa
      = r * 2 ^ g / 2 ^ gridExponent format (r * 2 ^ g) := by
    rw [shiftRight_mantissa, ht, Nat.add_sub_cancel, pow_add,
      Nat.mul_div_mul_right _ _ (Nat.two_pow_pos _)]
  unfold ofMagnitude
  simp only [hmantissa]

/-- A mantissa is rounded to a neighbour. -/
theorem round_eq (format : Format) (sign : Sign) (hm : m ≠ 0) (a : ℕ) :
  ∃ v, IsNearest (gridExponent format (m * 2 ^ a)) (m * 2 ^ a) v
    ∧ UnpackedFloat.round format sign m (format.minExponent + a) = ofMagnitude format sign v
  := by
  unfold UnpackedFloat.round decreaseExponent
  rw [targetExponent_eq format hm]
  dsimp only
  set g := gridExponent format (m * 2 ^ a) with hg
  obtain ⟨b, hb⟩ := Nat.exists_eq_add_of_le' (min_le_left a g)
  have hshift : (format.minExponent + (a : ℤ) - (format.minExponent + g)).toNat = b := by
    omega
  have hexponent : format.minExponent + (a : ℤ) - b = format.minExponent + (min a g : ℕ) := by
    omega
  have hmagnitude : m <<< b * 2 ^ min a g = m * 2 ^ a := by
    rw [Nat.shiftLeft_eq, Nat.mul_assoc, ← pow_add, ← hb]
  have hne : m <<< b ≠ 0 := by
    rw [Nat.shiftLeft_eq]
    apply Nat.mul_ne_zero hm (Nat.two_pow_pos b).ne'
  rw [hshift, hexponent]
  have hround := roundWithAccuracy_eq format sign hne (min a g)
  rw [hmagnitude, ← hg] at hround
  apply hround (min_le_right a g)

/-! ### Signs -/

variable {x y : ℤ}

/-- `y` is `x`, rounded to a neighbour among the numbers of a format. -/
structure RoundsTo (format : Format) (x y : ℤ) : Prop where
  onGrid : OnGrid format y.natAbs
  le : ∀ c : ℤ, OnGrid format c.natAbs → x ≤ c → y ≤ c
  ge : ∀ c : ℤ, OnGrid format c.natAbs → c ≤ x → c ≤ y

theorem natAbs_apply (sign : Sign) (n : ℕ) :
  (sign.apply n).natAbs = n
  := by
  cases sign with
  | positive => rfl
  | negative => exact Int.natAbs_neg n

theorem neg_apply (sign : Sign) (z : ℤ) :
  (-sign).apply z = -sign.apply z
  := by
  cases sign with
  | positive => rfl
  | negative => exact (neg_neg z).symm

theorem RoundsTo.refl (h : OnGrid format x.natAbs) :
  RoundsTo format x x
  := ⟨h, fun _ _ => id, fun _ _ => id⟩

theorem RoundsTo.neg (h : RoundsTo format x y) :
  RoundsTo format (-x) (-y)
  := by
  constructor
  case onGrid =>
    rw [Int.natAbs_neg]
    apply h.onGrid
  case le =>
    intro c hc hle
    rw [← Int.natAbs_neg] at hc
    have := h.ge (-c) hc (by omega)
    omega
  case ge =>
    intro c hc hle
    rw [← Int.natAbs_neg] at hc
    have := h.le (-c) hc (by omega)
    omega

theorem IsNeighbour.roundsTo (h : IsNeighbour (gridExponent format n) n v) (hn : n ≠ 0) :
  RoundsTo format n v
  := by
  constructor
  case onGrid => apply h.onGrid hn
  case le =>
    intro c hc hle
    have hv := h.le_of_onGrid hc (by omega)
    omega
  case ge =>
    intro c hc hle
    by_cases hneg : c < 0
    · omega
    · have hv := h.ge_of_onGrid hn hc (by omega)
      omega

/-- A signed mantissa is rounded to a number of the format. -/
theorem normalize_eq (format : Format) (z : ℤ) (a : ℕ) :
  ∃ sign v,
    UnpackedFloat.normalize format z (format.minExponent + a) .positive = ofMagnitude format sign v
    ∧ RoundsTo format (z * 2 ^ a) (sign.apply v)
  := by
  unfold UnpackedFloat.normalize
  rcases lt_trichotomy z 0 with hneg | rfl | hpos
  · rw [Int.compare_eq_lt.mpr hneg]
    dsimp only
    have hn : (-z).toNat ≠ 0 := by omega
    obtain ⟨v, hv, hround⟩ := round_eq format .negative hn a
    refine ⟨.negative, v, hround, ?_⟩
    have hrounds := (hv.toIsNeighbour.roundsTo (Nat.mul_ne_zero hn (Nat.two_pow_pos a).ne')).neg
    have hcast : -(((-z).toNat * 2 ^ a : ℕ) : ℤ) = z * 2 ^ a := by
      push_cast [Int.toNat_of_nonneg (show 0 ≤ -z by omega)]
      rw [neg_mul, neg_neg]
    rwa [hcast] at hrounds
  · rw [Int.compare_eq_eq.mpr rfl]
    refine ⟨.positive, 0, (ofMagnitude_zero _).symm, ?_⟩
    rw [zero_mul]
    apply RoundsTo.refl (Nat.dvd_zero _)
  · rw [Int.compare_eq_gt.mpr hpos]
    dsimp only
    have hn : z.toNat ≠ 0 := by omega
    obtain ⟨v, hv, hround⟩ := round_eq format .positive hn a
    refine ⟨.positive, v, hround, ?_⟩
    have hrounds := hv.toIsNeighbour.roundsTo (Nat.mul_ne_zero hn (Nat.two_pow_pos a).ne')
    have hcast : ((z.toNat * 2 ^ a : ℕ) : ℤ) = z * 2 ^ a := by
      push_cast [Int.toNat_of_nonneg hpos.le]
      rfl
    rwa [hcast] at hrounds

/-! ### Sums -/

theorem decreaseExponent_fst (m : ℕ) {a b : ℕ} (e : ℤ) :
  (decreaseExponent m (e + a) (e + b)).1 = m * 2 ^ (a - b)
  := by
  unfold decreaseExponent
  dsimp only
  rw [Nat.shiftLeft_eq]
  congr 2
  omega

theorem apply_mul (sign : Sign) (z w : ℤ) :
  sign.apply z * w = sign.apply (z * w)
  := by
  cases sign with
  | positive => rfl
  | negative => exact neg_mul z w

/-- A mantissa that is shifted to a lower exponent stands for the same magnitude. -/
theorem OnGrid.shifted_mul (h : OnGrid format n) {b : ℕ} (hb : b ≤ gridExponent format n) :
  ((n / 2 ^ gridExponent format n * 2 ^ (gridExponent format n - b) : ℕ) : ℤ) * 2 ^ b = n
  := by
  have hnat : n / 2 ^ gridExponent format n * 2 ^ (gridExponent format n - b) * 2 ^ b = n := by
    rw [Nat.mul_assoc, ← pow_add, Nat.sub_add_cancel hb, Nat.div_mul_cancel h]
  exact_mod_cast hnat

/-- The sum of two numbers that are not zero is found at the lower one of their exponents. -/
theorem add_ofMagnitude_of_ne_zero (sign other : Sign) (hm : OnGrid format m)
    (hn : OnGrid format n) (hm0 : m ≠ 0) (hn0 : n ≠ 0) :
  ∃ result v,
    UnpackedFloat.add format (ofMagnitude format sign m) (ofMagnitude format other n)
      = ofMagnitude format result v
    ∧ RoundsTo format (sign.apply m + other.apply n) (result.apply v)
  := by
  have hmin : min (format.minExponent + (gridExponent format m : ℤ))
      (format.minExponent + gridExponent format n)
      = format.minExponent + (min (gridExponent format m) (gridExponent format n) : ℕ) := by
    omega
  rw [ofMagnitude_pos sign hm0, ofMagnitude_pos other hn0]
  unfold UnpackedFloat.add
  dsimp only
  rw [hmin, decreaseExponent_fst, decreaseExponent_fst]
  obtain ⟨result, v, hresult, hrounds⟩ := normalize_eq format _ _
  refine ⟨result, v, hresult, ?_⟩
  rwa [add_mul, apply_mul, apply_mul, hm.shifted_mul (min_le_left _ _),
    hn.shifted_mul (min_le_right _ _)] at hrounds

/-- Sums are rounded to a number of the format. -/
theorem add_ofMagnitude (sign other : Sign) (hm : OnGrid format m) (hn : OnGrid format n) :
  ∃ result v,
    UnpackedFloat.add format (ofMagnitude format sign m) (ofMagnitude format other n)
      = ofMagnitude format result v
    ∧ RoundsTo format (sign.apply m + other.apply n) (result.apply v)
  := by
  by_cases hm0 : m = 0
  · rw [hm0, ofMagnitude_zero, apply_zero, zero_add]
    by_cases hn0 : n = 0
    · rw [hn0, ofMagnitude_zero, apply_zero]
      refine ⟨if sign == other then sign else .positive, 0, ?_, ?_⟩
      · rw [ofMagnitude_zero]
        cases sign <;> cases other <;> rfl
      · rw [apply_zero]
        apply RoundsTo.refl (Nat.dvd_zero _)
    · refine ⟨other, n, ?_, ?_⟩
      · rw [ofMagnitude_pos other hn0]
        rfl
      · apply RoundsTo.refl
        rw [natAbs_apply]
        apply hn
  · by_cases hn0 : n = 0
    · rw [hn0, ofMagnitude_zero, apply_zero, add_zero]
      refine ⟨sign, m, ?_, ?_⟩
      · rw [ofMagnitude_pos sign hm0]
        rfl
      · apply RoundsTo.refl
        rw [natAbs_apply]
        apply hm
    · apply add_ofMagnitude_of_ne_zero sign other hm hn hm0 hn0

theorem sub_eq_add_neg (x y : UnpackedFloat) :
  x.sub format y = x.add format y.neg
  := by
  cases x with
  | notANumber => cases y <;> rfl
  | infinity sign => cases y <;> rfl
  | zero sign => cases y <;> rfl
  | finite sign m e hm =>
      cases y with
      | notANumber => rfl
      | infinity other => rfl
      | zero other => rfl
      | finite other n i hn =>
          unfold UnpackedFloat.sub UnpackedFloat.add UnpackedFloat.neg
          dsimp only
          rw [neg_apply, Int.sub_eq_add_neg]

end MachineNumber

end RevisedSimplex
