import RevisedSimplex.Proofs.PackedNumbers

/-!
# Finite numbers

A number stays finite when it is packed as long as its exponent is below that of infinity, and
rounding raises the exponent by one at most.  So the product with a small number is finite if the
other factor is.  A conversion to single precision is finite below `singleLimit`: from there on the
power of two above all numbers of this format is nearest, or as near as the largest of them, whose
mantissa is odd.
-/

namespace RevisedSimplex

namespace MachineNumber

open Float.Model (Format UnpackedFloat totalExponent)
open Float.Model.UnpackedFloat

variable {format : Format} {m n v a g : ℕ}

/-! ### Exponents -/

/-- The magnitudes at or below an exponent. -/
theorem gridExponent_le_iff (format : Format) (n a : ℕ) :
  gridExponent format n ≤ a ↔ n < 2 ^ (format.mantissaBits + a)
  := by
  by_cases hn : n = 0
  · rw [hn, gridExponent_eq_zero (Nat.two_pow_pos _)]
    exact iff_of_true (Nat.zero_le a) (Nat.two_pow_pos _)
  · rw [← Nat.log2_lt hn]
    unfold gridExponent
    have hbits : 0 < format.mantissaBits := by
      unfold Format.mantissaBits
      omega
    omega

theorem onGrid_two_pow (format : Format) (n : ℕ) :
  OnGrid format (2 ^ n)
  := by
  apply Nat.pow_dvd_pow
  apply (gridExponent_le_log2 format _).trans
  rw [Nat.log2_two_pow]

theorem eq_mul_of_dvd {d k : ℕ} (hdvd : d ∣ v) (hle : k * d ≤ v) (hlt : v < (k + 1) * d) :
  v = k * d
  := by
  obtain ⟨c, rfl⟩ := hdvd
  rw [Nat.mul_comm d] at hle hlt ⊢
  have hlow := Nat.le_of_mul_le_mul_right hle (Nat.pos_of_lt_mul_left hlt)
  have hhigh := Nat.lt_of_mul_lt_mul_right hlt
  rw [show c = k by omega]

/-- From half of a step above an odd mantissa on, rounding goes up, the tie included. -/
theorem IsNearest.succ_mul_le {k : ℕ} (h : IsNearest (g + 1) n v) (hodd : ¬ 2 ∣ k)
    (hle : k * 2 ^ (g + 1) + 2 ^ g ≤ n) :
  (k + 1) * 2 ^ (g + 1) ≤ v
  := by
  by_contra hlt
  have hless : n < (k + 1) * 2 ^ (g + 1) := by
    by_contra hge
    apply hlt (h.ge _ (Nat.dvd_mul_left _ _) (not_lt.mp hge))
  have hsplit := Nat.div_add_mod' n (2 ^ (g + 1))
  rw [Nat.div_eq_of_lt_le (by omega) hless] at hsplit
  have hv : v = k * 2 ^ (g + 1) :=
    eq_mul_of_dvd h.dvd (h.ge _ (Nat.dvd_mul_left _ k) (by omega)) (not_le.mp hlt)
  have hstep : 2 ^ (g + 1) = 2 * 2 ^ g := Nat.pow_succ'
  rcases lt_trichotomy (2 * (n % 2 ^ (g + 1))) (2 ^ (g + 1)) with hdown | htie | hup
  · omega
  · have heven := h.even htie
    rw [hv, Nat.pow_succ', Nat.mul_dvd_mul_iff_right (Nat.two_pow_pos _)] at heven
    apply hodd heven
  · have hge := h.up hup
    have hpos := Nat.two_pow_pos g
    omega

/-- Below half of a step above a mantissa, rounding does not reach the next one. -/
theorem IsNearest.lt_succ_mul {k : ℕ} (h : IsNearest (g + 1) n v)
    (hlt : n < k * 2 ^ (g + 1) + 2 ^ g) :
  v < (k + 1) * 2 ^ (g + 1)
  := by
  have hstep : 2 ^ (g + 1) = 2 * 2 ^ g := Nat.pow_succ'
  have hpos := Nat.two_pow_pos (g + 1)
  rw [Nat.succ_mul]
  by_cases hle : n ≤ k * 2 ^ (g + 1)
  · have hv := h.le _ (Nat.dvd_mul_left _ k) hle
    omega
  · have hquotient : n / 2 ^ (g + 1) = k := by
      apply Nat.div_eq_of_lt_le
      · omega
      · rw [Nat.succ_mul]
        omega
    have hsplit := Nat.div_add_mod' n (2 ^ (g + 1))
    rw [hquotient] at hsplit
    have hv := h.down (by omega)
    omega

/-- Rounding reaches a power of two from half of the last step before it on, as the mantissa of
that step is odd. -/
theorem IsNearest.lt_iff (h : IsNearest (g + 1) n v) {p : ℕ} (hp : 0 < p) :
  v < 2 ^ p * 2 ^ (g + 1) ↔ n < (2 ^ (p + 1) - 1) * 2 ^ g
  := by
  obtain ⟨k, hk⟩ := Nat.exists_eq_succ_of_ne_zero (Nat.two_pow_pos p).ne'
  have hodd : ¬ 2 ∣ k := by
    have heven : 2 ∣ 2 ^ p := dvd_pow_self 2 hp.ne'
    omega
  have hlimit : (2 ^ (p + 1) - 1) * 2 ^ g = k * 2 ^ (g + 1) + 2 ^ g := by
    rw [Nat.pow_succ, hk, Nat.pow_succ', Nat.mul_left_comm, ← Nat.mul_assoc, ← Nat.succ_mul]
    congr 1
    omega
  rw [hk, hlimit]
  constructor
  · intro hv
    by_contra hge
    apply not_le.mpr hv (h.succ_mul_le hodd (not_lt.mp hge))
  · apply h.lt_succ_mul

/-- The magnitudes that are rounded to the numbers at or below an exponent. -/
theorem IsNearest.gridExponent_le_iff (h : IsNearest (gridExponent format n) n v) (hn : n ≠ 0) :
  gridExponent format v ≤ g + 1 ↔ n < (2 ^ (format.mantissaBits + 1) - 1) * 2 ^ g
  := by
  have hbits : 0 < format.mantissaBits := by
    unfold Format.mantissaBits
    omega
  have hpos := Nat.two_pow_pos g
  rw [MachineNumber.gridExponent_le_iff]
  rcases lt_trichotomy (gridExponent format n) (g + 1) with hlt | heq | hgt
  · have hlow := (MachineNumber.gridExponent_le_iff format n g).mp (Nat.le_of_lt_succ hlt)
    apply iff_of_true
    · apply (h.le_of_onGrid (onGrid_two_pow format _) hlow.le).trans_lt
      apply Nat.pow_lt_pow_right Nat.one_lt_two
      omega
    · apply hlow.trans_le
      rw [pow_add]
      apply Nat.mul_le_mul_right
      have hone := Nat.two_pow_pos format.mantissaBits
      omega
  · rw [heq] at h
    rw [pow_add]
    apply h.lt_iff hbits
  · have hhigh : 2 ^ (format.mantissaBits + (g + 1)) ≤ n := by
      rw [← not_lt, ← MachineNumber.gridExponent_le_iff format n (g + 1)]
      apply not_le.mpr hgt
    apply iff_of_false
    · apply not_lt.mpr
      apply h.ge_of_onGrid hn (onGrid_two_pow format _) hhigh
    · apply not_lt.mpr
      apply le_trans _ hhigh
      rw [← Nat.add_assoc, Nat.add_right_comm, pow_add _ _ g]
      apply Nat.mul_le_mul_right _ (Nat.sub_le _ 1)

/-! ### Packing -/

/-- A number with an exponent below that of infinity is packed as a finite one. -/
theorem isFinite_pack_finite (sign : Sign) {e : ℤ} (hm : 0 < m) (he : e ≤ format.minExponent + a)
    (ha : a + 2 < 2 ^ format.exponentBits) :
  (unpack format (pack format (.finite sign m e hm))).isFinite = true
  := by
  have hbiased : (e + format.exponentBias + format.mantissaBitsWithoutImplicit).toNat ≤ a + 1 := by
    rw [← biasedExponent_eq format a]
    apply Int.toNat_le_toNat
    omega
  have hfinite {exponent : BitVec format.exponentBits} (h : exponent ≠ -1#_)
      (mantissa : BitVec format.mantissaBitsWithoutImplicit) :
      (unpack format (packComponents format sign exponent mantissa)).isFinite = true := by
    rcases unpack_packComponents_cases h sign mantissa with h | ⟨m, e, hm, h⟩
    · rw [h]
      rfl
    · rw [h]
      rfl
  unfold pack
  dsimp only
  rw [if_neg (by omega)]
  split
  · apply hfinite (ofNat_ne_negOne (by omega))
  · apply hfinite (ofNat_ne_negOne (by omega))

/-- A magnitude of the format is packed as a finite number below the exponent of infinity only. -/
theorem isFinite_pack_ofMagnitude (hbits : 1 < format.exponentBits) (sign : Sign)
    (hgrid : OnGrid format n) :
  (unpack format (pack format (ofMagnitude format sign n))).isFinite = true
    ↔ gridExponent format n + 2 < 2 ^ format.exponentBits
  := by
  by_cases hexponent : gridExponent format n + 2 < 2 ^ format.exponentBits
  · rw [unpack_pack_ofMagnitude hbits sign ⟨hgrid, hexponent⟩]
    exact iff_of_true (isFinite_ofMagnitude sign n) hexponent
  · have hfour := four_le_two_pow hbits
    have hn : n ≠ 0 := by
      rintro rfl
      rw [gridExponent_eq_zero (Nat.two_pow_pos _)] at hexponent
      omega
    rw [unpack_pack_beyond sign hn (not_lt.mp hexponent)]
    exact iff_of_false Bool.false_ne_true hexponent

/-! ### Rounding -/

/-- The rounded mantissa may be carried to the next power of two. -/
theorem roundedMantissa_log2_le {p : ℕ} (h : m < 2 ^ (p + n)) :
  (ExtendedMantissa.ofMantissaAndAccuracy m .exact >>> n).roundedMantissa.log2 ≤ p
  := by
  have hquotient : m / 2 ^ n < 2 ^ p := by
    rw [Nat.div_lt_iff_lt_mul (Nat.two_pow_pos n), ← pow_add]
    apply h
  obtain ⟨-, hhigh⟩ := ExtendedMantissa.le_roundedMantissa
    (ExtendedMantissa.ofMantissaAndAccuracy m .exact >>> n)
  rw [shiftRight_mantissa] at hhigh
  rw [← Nat.log2_two_pow (n := p)]
  apply log2_mono
  omega

theorem lt_two_pow_of_log2_lt (h : m.log2 + 1 ≤ n) :
  m < 2 ^ n
  := by
  by_cases hm : m = 0
  · rw [hm]
    apply Nat.two_pow_pos
  · rw [← Nat.log2_lt hm]
    omega

/-- Rounding raises an exponent by one at most. -/
theorem isFinite_roundWithAccuracy (hbits : 1 < format.exponentBits) (sign : Sign) (m : ℕ) {e : ℤ}
    (he : e ≤ format.minExponent + a)
    (htotal : totalExponent m e ≤ format.minExponent + (format.mantissaBits + a : ℕ))
    (ha : a + 3 < 2 ^ format.exponentBits) :
  (unpack format (pack format (roundWithAccuracy format sign m e .exact))).isFinite = true
  := by
  unfold roundWithAccuracy shiftToTargetExponent shiftToExponent
  dsimp only
  unfold totalExponent Format.targetExponent at *
  obtain ⟨s, hs⟩ : ∃ s, (max (((m.log2 : ℤ) + 1 + e) - format.mantissaBits) format.minExponent
      - e).toNat = s := ⟨_, rfl⟩
  rw [hs]
  have hrounded : (ExtendedMantissa.ofMantissaAndAccuracy m .exact >>> s).roundedMantissa.log2
      ≤ format.mantissaBits := by
    apply roundedMantissa_log2_le
    apply lt_two_pow_of_log2_lt
    omega
  split
  · rw [unpack_pack_zero hbits]
    rfl
  · apply isFinite_pack_finite (a := a + 1) _ _ _ ha
    omega

/-- A mantissa with a small exponent is not shifted before it is rounded. -/
theorem round_eq_roundWithAccuracy (sign : Sign) (m : ℕ) {e : ℤ} (he : e ≤ format.minExponent) :
  UnpackedFloat.round format sign m e = roundWithAccuracy format sign m e .exact
  := by
  have hshift : (e - format.targetExponent (totalExponent m e)).toNat = 0 := by
    unfold Format.targetExponent
    omega
  unfold UnpackedFloat.round decreaseExponent
  dsimp only
  rw [hshift, Nat.shiftLeft_zero, Int.natCast_zero, Int.sub_zero]

/-! ### Products -/

theorem log2_mul_le (m n : ℕ) :
  (m * n).log2 ≤ m.log2 + n.log2 + 1
  := by
  by_cases hzero : m * n = 0
  · rw [hzero, Nat.log2_zero]
    apply Nat.zero_le
  · rw [← Nat.lt_succ_iff, Nat.log2_lt hzero]
    have hm := Nat.lt_log2_self (n := m)
    have hn := Nat.lt_log2_self (n := n)
    calc m * n < 2 ^ (m.log2 + 1) * 2 ^ (n.log2 + 1) := Nat.mul_lt_mul'' hm hn
      _ = 2 ^ (m.log2 + n.log2 + 1 + 1) := by
        rw [← pow_add]
        congr 1
        omega

/-- The product with a number below one half does not leave the exponents of the format. -/
theorem isFinite_mul_ofMagnitude (hbits : 1 < format.exponentBits) (sign other : Sign)
    (hn : Fits format n) {k : ℕ} {e : ℤ} (hk : 0 < k) (hsmall : totalExponent k e < 0) :
  (unpack format (pack format
    (UnpackedFloat.mul format (ofMagnitude format sign n) (.finite other k e hk)))).isFinite = true
  := by
  by_cases hn0 : n = 0
  · rw [hn0, ofMagnitude_zero]
    change (unpack format (pack format (.zero _))).isFinite = true
    rw [unpack_pack_zero hbits]
    rfl
  · have hlog := log2_div_gridExponent hn0 hn.onGrid
    have hproduct := log2_mul_le (n / 2 ^ gridExponent format n) k
    have hexponent := hn.exponent
    have hgrid : n.log2 + 1 ≤ format.mantissaBits + gridExponent format n := by
      unfold gridExponent
      omega
    have hfour := four_le_two_pow hbits
    rw [ofMagnitude_pos sign hn0]
    unfold totalExponent at hsmall
    apply isFinite_roundWithAccuracy (a := gridExponent format n - 1) hbits
    · omega
    · unfold totalExponent
      omega
    · omega

/-- The product with a number below one half is finite if the other factor is. -/
theorem Packed.isFinite_mul {p : UnpackedFloat} {s : Option EInt} (hp : Packed format p s)
    (hbits : 1 < format.exponentBits) {k : ℕ} {e : ℤ} (hk : 0 < k)
    (hsmall : totalExponent k e < 0) :
  (unpack format (pack format (p.mul format (.finite .positive k e hk)))).isFinite = p.isFinite
  := by
  cases hp with
  | undefined =>
      change (unpack format (packedNaN format)).isFinite = _
      rw [unpack_packedNaN]
  | top =>
      change (unpack format (pack format (.infinity _))).isFinite = _
      rw [unpack_pack_infinity]
      rfl
  | bottom =>
      change (unpack format (pack format (.infinity _))).isFinite = _
      rw [unpack_pack_infinity]
      rfl
  | number sign hn =>
      rw [isFinite_mul_ofMagnitude hbits sign .positive hn hk hsmall, isFinite_ofMagnitude]

/-- The product of numbers that are not negative is not negative. -/
theorem nonneg_mul (hbits : 1 < format.exponentBits) {p : UnpackedFloat} {k : ℕ} {e : ℤ}
    (hk : 0 < k) (hp : UnpackedFloat.le (.zero .positive) p = true) :
  UnpackedFloat.le (.zero .positive)
    (unpack format (pack format (p.mul format (.finite .positive k e hk)))) = true
  := by
  cases p with
  | notANumber => cases hp
  | infinity sign =>
      cases sign with
      | negative => cases hp
      | positive =>
          change UnpackedFloat.le _ (unpack format (pack format (.infinity .positive))) = true
          rw [unpack_pack_infinity]
          rfl
  | zero sign =>
      change UnpackedFloat.le _ (unpack format (pack format (.zero _))) = true
      rw [unpack_pack_zero hbits]
      rfl
  | finite sign m i hm =>
      cases sign with
      | negative => cases hp
      | positive => apply nonneg_roundWithAccuracy hbits

namespace Formatted

variable {F : Type} [Scalar F] (formatted : Formatted F) {x y : F} {k : ℕ} {e : ℤ} {hk : 0 < k}

theorem isFinite_mul (hy : formatted.unpack y = .finite .positive k e hk)
    (hsmall : totalExponent k e < 0) (x : F) :
  Scalar.isFinite (x * y) = Scalar.isFinite x
  := by
  obtain ⟨s, hs⟩ := formatted.exists_packed x
  rw [formatted.isFinite, formatted.isFinite, formatted.mul, formatted.unpack_ofUnpacked, hy]
  apply hs.isFinite_mul formatted.exponentBits hk hsmall

theorem mul_nonneg (hy : formatted.unpack y = .finite .positive k e hk) (hx : 0 ≤ x) :
  0 ≤ x * y
  := by
  rw [formatted.le_iff, formatted.zero] at hx ⊢
  rw [formatted.mul, formatted.unpack_ofUnpacked, hy]
  apply nonneg_mul formatted.exponentBits hk hx

end Formatted

/-! ### Conversions -/

/-- The least double that single precision takes to infinity, in the middle between the largest
number of this format and the next power of two. -/
def singleLimit : Float :=
  3.4028235677973366e38

/-- The limit as a multiple of the least double, of which the least number of single precision is
the multiple by `2 ^ 925`. -/
def limitMagnitude : ℕ :=
  (2 ^ 25 - 1) * 2 ^ 252 * 2 ^ 925

theorem limitMagnitude_eq :
  limitMagnitude = (2 ^ 25 - 1) * 2 ^ 28 * 2 ^ 1149
  := by
  unfold limitMagnitude
  rw [Nat.mul_assoc, Nat.mul_assoc, ← pow_add, ← pow_add]

theorem limitMagnitude_pos :
  0 < limitMagnitude
  := by
  unfold limitMagnitude
  positivity

theorem packed_singleLimit :
  Packed .binary64 (Formatted.double.unpack singleLimit) (some (limitMagnitude : ℤ))
  := by
  have hunpack (x : Float) : Formatted.double.unpack x
      = unpack .binary64 x.toModel.toBits.toBitVec := rfl
  have hbits : singleLimit.toModel.toBits = 0x47EFFFFFF0000000 := by decide +kernel
  have hfits : Fits .binary64 limitMagnitude := by
    rw [limitMagnitude_eq]
    apply fits_full <;> decide
  have hnumber := Packed.number .positive hfits
  rw [hunpack, hbits]
  rw [limitMagnitude_eq, ofMagnitude_full .positive (by decide) (by decide) (by decide),
    ← limitMagnitude_eq] at hnumber
  exact hnumber

/-- The single precision number nearest to a positive double. -/
def roundedSingle (n : ℕ) : UnpackedFloat :=
  unpack .binary32 (pack .binary32 (UnpackedFloat.round .binary32 .positive
    (n / 2 ^ gridExponent .binary64 n)
    (Format.binary64.minExponent + gridExponent .binary64 n)))

theorem lt_mul_two_pow_iff (h : m * 2 ^ a = n) (k : ℕ) :
  n < k * 2 ^ a ↔ m < k
  := by
  rw [← h]
  exact Nat.mul_lt_mul_right (Nat.two_pow_pos a)

/-- Doubles that are multiples of the least number of single precision. -/
theorem isFinite_roundedSingle_of_ge (hn : Fits .binary64 n) (hn0 : n ≠ 0)
    (hexponent : gridExponent .binary64 n = a + 925) :
  (roundedSingle n).isFinite = true ↔ n < limitMagnitude
  := by
  have hmantissa : 0 < n / 2 ^ gridExponent .binary64 n := div_gridExponent_pos hn0
  have hmagnitude : n / 2 ^ gridExponent .binary64 n * 2 ^ a * 2 ^ 925 = n := by
    rw [Nat.mul_assoc, ← pow_add, ← hexponent, Nat.div_mul_cancel hn.onGrid]
  have hunit : Format.binary64.minExponent + (gridExponent .binary64 n : ℤ)
      = Format.binary32.minExponent + a := by
    rw [hexponent]
    change (-1074 + (a + 925 : ℕ) : ℤ) = -149 + a
    omega
  obtain ⟨v, hv, hround⟩ := round_eq .binary32 .positive hmantissa.ne' a
  have hne := Nat.mul_ne_zero hmantissa.ne' (Nat.two_pow_pos a).ne'
  have hlimit := lt_mul_two_pow_iff hmagnitude ((2 ^ 25 - 1) * 2 ^ 252)
  unfold roundedSingle limitMagnitude
  rw [hunit, hround, isFinite_pack_ofMagnitude (by decide) _ (hv.onGrid hne), hlimit,
    show 2 ^ Format.binary32.exponentBits = 252 + 1 + 3 from rfl]
  apply Iff.trans _ (hv.gridExponent_le_iff hne)
  rw [← Nat.lt_succ_iff]
  exact Nat.add_lt_add_iff_right

/-- Doubles with a unit below the least number of single precision, which are all small. -/
theorem isFinite_roundedSingle_of_lt (hn : Fits .binary64 n) (hn0 : n ≠ 0)
    (hexponent : gridExponent .binary64 n < 925) :
  (roundedSingle n).isFinite = true ∧ n < limitMagnitude
  := by
  have hlog := log2_div_gridExponent hn0 hn.onGrid
  have hgrid : n.log2 + 1 ≤ 53 + gridExponent .binary64 n := by
    change n.log2 + 1 ≤ 53 + (n.log2 + 1 - 53)
    omega
  have hunit : Format.binary64.minExponent = -1074 := rfl
  have hsingle : Format.binary32.minExponent = -149 := rfl
  have hbits : Format.binary32.mantissaBits = 24 := rfl
  constructor
  · unfold roundedSingle
    rw [round_eq_roundWithAccuracy .positive _ (by omega)]
    apply isFinite_roundWithAccuracy (a := 28) (by decide) .positive
    · omega
    · unfold totalExponent
      omega
    · decide
  · apply (lt_two_pow_of_log2_lt (show n.log2 + 1 ≤ 53 + 925 by omega)).trans_le
    unfold limitMagnitude
    rw [pow_add]
    apply Nat.mul_le_mul_right
    decide

theorem isFinite_roundedSingle_iff (hn : Fits .binary64 n) (hn0 : n ≠ 0) :
  (roundedSingle n).isFinite = true ↔ n < limitMagnitude
  := by
  by_cases hexponent : gridExponent .binary64 n < 925
  · obtain ⟨hfinite, hlt⟩ := isFinite_roundedSingle_of_lt hn hn0 hexponent
    exact iff_of_true hfinite hlt
  · obtain ⟨a, ha⟩ := Nat.exists_eq_add_of_le' (not_lt.mp hexponent)
    apply isFinite_roundedSingle_of_ge hn hn0 ha

theorem isFinite_nearestSingle_of_unpack {x : Float} {sign : Sign} (hn : Fits .binary64 n)
    (hx : x.toModel.unpack = ofMagnitude .binary64 sign n) (hnonneg : 0 ≤ sign.apply n) :
  (nearestSingle x).toModel.unpack.isFinite = true ↔ sign.apply n < limitMagnitude
  := by
  unfold nearestSingle
  rw [hx]
  by_cases hn0 : n = 0
  · rw [hn0, ofMagnitude_zero, apply_zero]
    change (unpack .binary32 (pack .binary32 (.zero sign))).isFinite = true ↔ _
    rw [unpack_pack_zero (by decide)]
    exact iff_of_true rfl (Int.natCast_pos.mpr limitMagnitude_pos)
  · cases sign with
    | negative =>
        change 0 ≤ -(n : ℤ) at hnonneg
        omega
    | positive =>
        rw [ofMagnitude_pos .positive hn0]
        change (roundedSingle n).isFinite = true ↔ (n : ℤ) < limitMagnitude
        rw [isFinite_roundedSingle_iff hn hn0, Int.ofNat_lt]

/-- A finite double that is not negative becomes infinite from the limit on. -/
theorem isFinite_nearestSingle_iff {x : Float} (hfinite : x.isFinite = true) (h : 0 ≤ x) :
  Scalar.isFinite (nearestSingle x) = true ↔ x < singleLimit
  := by
  obtain ⟨s, hs⟩ := Formatted.double.exists_packed x
  rw [Formatted.double.le_iff, Formatted.double.packed_zero.le_iff hs] at h
  obtain ⟨_, c, ⟨⟩, rfl, hnonneg⟩ := h
  rw [Formatted.double.lt_iff, hs.lt_iff packed_singleLimit]
  simp only [Option.some.injEq, exists_eq_left', exists_and_left]
  change x.toModel.unpack.isFinite = true at hfinite
  change Packed .binary64 x.toModel.unpack (some c) at hs
  generalize hx : x.toModel.unpack = p at hs hfinite
  cases hs with
  | top => cases hfinite
  | bottom => cases hfinite
  | number sign hn =>
      rw [WithBotTop.coe_lt_coe]
      apply isFinite_nearestSingle_of_unpack hn hx (WithBotTop.coe_le_coe.mp hnonneg)

end MachineNumber

/-! ### Scalars -/

/-- Numbers with a machine epsilon whose multiples are finite and not negative where the factor
is. -/
class ScaledScalar (F : Type) [Scalar F] : Prop extends RoundedScalar F where
  isFinite_mul_epsilon : ∀ x : F, Scalar.isFinite (x * Scalar.epsilon) = Scalar.isFinite x
  mul_epsilon_nonneg : ∀ {x : F}, 0 ≤ x → 0 ≤ x * Scalar.epsilon

theorem MachineNumber.unpack_epsilon_double :
  Formatted.double.unpack Scalar.epsilon = .finite .positive (2 ^ 52) (-104) (by decide)
  := rfl

theorem MachineNumber.unpack_epsilon_single :
  Formatted.single.unpack Scalar.epsilon = .finite .positive (2 ^ 23) (-46) (by decide)
  := rfl

instance : ScaledScalar Float where
  isFinite_mul_epsilon :=
    MachineNumber.Formatted.double.isFinite_mul MachineNumber.unpack_epsilon_double (by decide)
  mul_epsilon_nonneg :=
    MachineNumber.Formatted.double.mul_nonneg MachineNumber.unpack_epsilon_double

instance : ScaledScalar Float32 where
  isFinite_mul_epsilon :=
    MachineNumber.Formatted.single.isFinite_mul MachineNumber.unpack_epsilon_single (by decide)
  mul_epsilon_nonneg :=
    MachineNumber.Formatted.single.mul_nonneg MachineNumber.unpack_epsilon_single

end RevisedSimplex
