import RevisedSimplex.Proofs.LawfulScalar
import Mathlib

/-!
# Machine numbers

The numbers of a floating-point format, counted in units of its least exponent, have integers as
their magnitudes.  The numbers near a magnitude `n` are the multiples of `2 ^ gridExponent n`, so
that a magnitude belongs to the format when it is `OnGrid`, and to its bits when it `Fits` as well:
when its exponent is below that of infinity.

`ofMagnitude` is the unpacked number of a sign and a magnitude.  What comes out of the bits of a
format is undefined, infinite, or such a number; packing such a number and unpacking it again gives
it back, or an infinity if it does not fit; and such numbers compare as the integers that they
stand for.
-/

namespace RevisedSimplex

namespace MachineNumber

open Float.Model (Format UnpackedFloat)
open Float.Model.UnpackedFloat

variable {format : Format} {m n a : ℕ}

/-! ### Magnitudes -/

/-- The exponent of the numbers of a format near a magnitude, counted from the least exponent. -/
def gridExponent (format : Format) (n : ℕ) : ℕ :=
  n.log2 + 1 - format.mantissaBits

theorem log2_mul_two_pow (hm : m ≠ 0) (a : ℕ) :
  (m * 2 ^ a).log2 = m.log2 + a
  := by
  have hne : m * 2 ^ a ≠ 0 := Nat.mul_ne_zero hm (Nat.two_pow_pos a).ne'
  rw [Nat.log2_eq_iff hne, add_right_comm, pow_add, pow_add]
  constructor
  · apply Nat.mul_le_mul_right
    apply Nat.log2_self_le hm
  · apply Nat.mul_lt_mul_of_pos_right
    · apply Nat.lt_log2_self
    · apply Nat.two_pow_pos

theorem log2_mono (h : m ≤ n) :
  m.log2 ≤ n.log2
  := by
  by_cases hm : m = 0
  · rw [hm, Nat.log2_zero]
    apply Nat.zero_le
  · rw [Nat.le_log2 (by omega)]
    apply (Nat.log2_self_le hm).trans h

theorem gridExponent_mono (h : m ≤ n) :
  gridExponent format m ≤ gridExponent format n
  := by
  have hlog := log2_mono h
  unfold gridExponent
  omega

theorem lt_of_gridExponent_lt (h : gridExponent format m < gridExponent format n) :
  m < n
  := by
  by_contra hge
  apply absurd (gridExponent_mono (not_lt.mp hge)) (not_le.mpr h)

theorem gridExponent_le_log2 (format : Format) (n : ℕ) :
  gridExponent format n ≤ n.log2
  := by
  unfold gridExponent Format.mantissaBits
  omega

/-- A magnitude that is a multiple of the distance between the numbers around it. -/
def OnGrid (format : Format) (n : ℕ) : Prop :=
  2 ^ gridExponent format n ∣ n

theorem onGrid_of_gridExponent_eq_zero (h : gridExponent format n = 0) :
  OnGrid format n
  := by
  unfold OnGrid
  rw [h]
  apply one_dvd

theorem gridExponent_eq_zero (h : n < 2 ^ format.mantissaBits) :
  gridExponent format n = 0
  := by
  unfold gridExponent
  by_cases hn : n = 0
  · rw [hn, Nat.log2_zero, Format.mantissaBits]
    omega
  · rw [← Nat.log2_lt hn] at h
    omega

/-- A full mantissa determines the exponent. -/
theorem gridExponent_full (hlow : 2 ^ format.mantissaBitsWithoutImplicit ≤ m)
    (hhigh : m < 2 ^ format.mantissaBits) :
  gridExponent format (m * 2 ^ a) = a
  := by
  have hm : m ≠ 0 := by
    have := Nat.two_pow_pos format.mantissaBitsWithoutImplicit
    omega
  unfold Format.mantissaBits at hhigh
  rw [Nat.add_comm] at hhigh
  unfold gridExponent Format.mantissaBits
  rw [log2_mul_two_pow hm, (Nat.log2_eq_iff hm).mpr ⟨hlow, hhigh⟩]
  omega

/-- A magnitude that belongs to the format and is below its infinity. -/
structure Fits (format : Format) (n : ℕ) : Prop where
  onGrid : OnGrid format n
  exponent : gridExponent format n + 2 < 2 ^ format.exponentBits

theorem four_le_two_pow (h : 1 < n) :
  4 ≤ 2 ^ n
  := Nat.pow_le_pow_right Nat.zero_lt_two h

theorem fits_of_lt (hbits : 1 < format.exponentBits) (h : n < 2 ^ format.mantissaBits) :
  Fits format n
  := by
  have hfour := four_le_two_pow hbits
  have hgrid := gridExponent_eq_zero h
  constructor
  · apply onGrid_of_gridExponent_eq_zero hgrid
  · omega

theorem fits_one (hbits : 1 < format.exponentBits) :
  Fits format 1
  := by
  apply fits_of_lt hbits (Nat.one_lt_two_pow _)
  unfold Format.mantissaBits
  omega

theorem fits_full (hlow : 2 ^ format.mantissaBitsWithoutImplicit ≤ m)
    (hhigh : m < 2 ^ format.mantissaBits) (ha : a + 2 < 2 ^ format.exponentBits) :
  Fits format (m * 2 ^ a)
  := by
  have hgrid := gridExponent_full (a := a) hlow hhigh
  constructor
  · unfold OnGrid
    rw [hgrid]
    apply Nat.dvd_mul_left
  · rw [hgrid]
    apply ha

/-! ### Numbers -/

/-- The unpacked number of a sign and a magnitude. -/
def ofMagnitude (format : Format) (sign : Sign) (n : ℕ) : UnpackedFloat :=
  if h : n / 2 ^ gridExponent format n = 0 then .zero sign
  else .finite sign (n / 2 ^ gridExponent format n) (format.minExponent + gridExponent format n)
    (Nat.pos_of_ne_zero h)

theorem ofMagnitude_zero (sign : Sign) :
  ofMagnitude format sign 0 = .zero sign
  := by
  unfold ofMagnitude
  rw [dif_pos (Nat.zero_div _)]

theorem div_gridExponent_pos (hn : n ≠ 0) :
  0 < n / 2 ^ gridExponent format n
  := by
  apply Nat.div_pos
  · apply le_trans _ (Nat.log2_self_le hn)
    apply Nat.pow_le_pow_right Nat.zero_lt_two (gridExponent_le_log2 format n)
  · apply Nat.two_pow_pos

theorem ofMagnitude_pos (sign : Sign) (hn : n ≠ 0) :
  ofMagnitude format sign n = .finite sign (n / 2 ^ gridExponent format n)
    (format.minExponent + gridExponent format n) (div_gridExponent_pos hn)
  := by
  unfold ofMagnitude
  rw [dif_neg (div_gridExponent_pos hn).ne']

theorem ofMagnitude_small (sign : Sign) (hn : n ≠ 0) (h : n < 2 ^ format.mantissaBits) :
  ofMagnitude format sign n = .finite sign n format.minExponent (Nat.pos_of_ne_zero hn)
  := by
  rw [ofMagnitude_pos sign hn]
  simp [gridExponent_eq_zero h]

theorem ofMagnitude_full (sign : Sign) (hm : 0 < m)
    (hlow : 2 ^ format.mantissaBitsWithoutImplicit ≤ m) (hhigh : m < 2 ^ format.mantissaBits) :
  ofMagnitude format sign (m * 2 ^ a) = .finite sign m (format.minExponent + a) hm
  := by
  rw [ofMagnitude_pos sign (Nat.mul_ne_zero hm.ne' (Nat.two_pow_pos a).ne')]
  simp only [gridExponent_full hlow hhigh, Nat.mul_div_cancel _ (Nat.two_pow_pos a)]

theorem neg_ofMagnitude (sign : Sign) (n : ℕ) :
  (ofMagnitude format sign n).neg = ofMagnitude format (-sign) n
  := by
  unfold ofMagnitude
  split <;> rfl

theorem isFinite_ofMagnitude (sign : Sign) (n : ℕ) :
  (ofMagnitude format sign n).isFinite = true
  := by
  unfold ofMagnitude
  split <;> rfl

/-- The mantissa of a number on the grid. -/
theorem log2_div_gridExponent (hn : n ≠ 0) (h : OnGrid format n) :
  (n / 2 ^ gridExponent format n).log2 + gridExponent format n = n.log2
  := by
  rw [← log2_mul_two_pow (div_gridExponent_pos hn).ne', Nat.div_mul_cancel h]

/-! ### Unpacking -/

theorem minExponent_eq (format : Format) :
  format.minExponent = 1 - (format.exponentBias + format.mantissaBitsWithoutImplicit : ℕ)
  := by
  have hpos := Nat.two_pow_pos (format.exponentBits - 1)
  have hcast : (2 : ℤ) ^ (format.exponentBits - 1) = (2 ^ (format.exponentBits - 1) : ℕ) := by
    push_cast
    rfl
  unfold Format.minExponent Format.exponentBias Format.mantissaBits
  rw [hcast]
  omega

theorem append_toNat {w : ℕ} (mantissa : BitVec w) :
  (1#1 ++ mantissa).toNat = 2 ^ w + mantissa.toNat
  := by
  rw [BitVec.toNat_append, ← Nat.shiftLeft_add_eq_or_of_lt mantissa.isLt]
  simp [Nat.shiftLeft_eq]

/-- What comes out of the bits of a format. -/
theorem unpack_cases (hbits : 1 < format.exponentBits) (b : BitVec format.numBits) :
  unpack format b = .notANumber ∨ (∃ sign, unpack format b = .infinity sign)
    ∨ ∃ sign n, Fits format n ∧ unpack format b = ofMagnitude format sign n
  := by
  have hmantissa := (unpackMantissa b).isLt
  have hpow : 2 ^ format.mantissaBits = 2 * 2 ^ format.mantissaBitsWithoutImplicit := by
    unfold Format.mantissaBits
    rw [Nat.pow_add, Nat.pow_one]
  unfold unpack
  dsimp only
  split
  · split
    · exact Or.inr (Or.inl ⟨_, rfl⟩)
    · exact Or.inl rfl
  · rename_i hinfinite
    refine Or.inr (Or.inr ?_)
    split
    · rename_i hexponent
      split
      · exact ⟨_, 0, fits_of_lt hbits (Nat.two_pow_pos _), (ofMagnitude_zero _).symm⟩
      · rename_i hne
        have hn : (unpackMantissa b).toNat ≠ 0 := fun h => hne (BitVec.eq_of_toNat_eq h)
        have hsmall : (unpackMantissa b).toNat < 2 ^ format.mantissaBits := by omega
        refine ⟨Sign.ofBitVec (unpackSign b), _, fits_of_lt hbits hsmall, ?_⟩
        rw [ofMagnitude_small _ hn hsmall, minExponent_eq, hexponent, BitVec.toNat_ofNat,
          Nat.zero_mod]
        congr 1
        omega
    · rename_i hexponent
      obtain ⟨e, he⟩ : ∃ e, (unpackExponent b).toNat = e + 1 := by
        apply Nat.exists_eq_succ_of_ne_zero
        intro h
        apply hexponent (BitVec.eq_of_toNat_eq h)
      have hlast : (unpackExponent b).toNat ≠ 2 ^ format.exponentBits - 1 := by
        intro h
        apply hinfinite
        apply BitVec.eq_of_toNat_eq
        rw [h, BitVec.neg_one_eq_allOnes, BitVec.toNat_allOnes]
      have hlt := (unpackExponent b).isLt
      have hfull := append_toNat (unpackMantissa b)
      refine ⟨Sign.ofBitVec (unpackSign b), (1#1 ++ unpackMantissa b).toNat * 2 ^ e,
        fits_full (by omega) (by omega) (by omega), ?_⟩
      rw [ofMagnitude_full _ (by simp) (by omega) (by omega), minExponent_eq, he]
      congr 1
      omega

/-! ### Packing -/

theorem unpack_pack_infinity (sign : Sign) :
  unpack format (pack format (.infinity sign)) = .infinity sign
  := by
  simp [pack, packedInfinity, unpack]

/-- The exponent that is stored for a number. -/
theorem biasedExponent_eq (format : Format) (a : ℕ) :
  (format.minExponent + a + format.exponentBias + format.mantissaBitsWithoutImplicit).toNat = a + 1
  := by
  rw [minExponent_eq]
  omega

/-- What does not fit becomes infinite. -/
theorem unpack_pack_beyond (sign : Sign) (hn : n ≠ 0)
    (h : 2 ^ format.exponentBits ≤ gridExponent format n + 2) :
  unpack format (pack format (ofMagnitude format sign n)) = .infinity sign
  := by
  rw [ofMagnitude_pos sign hn]
  unfold pack
  dsimp only
  rw [biasedExponent_eq, if_pos h]
  apply unpack_pack_infinity

theorem ofNat_ne_negOne {w e : ℕ} (h : e + 1 < 2 ^ w) :
  BitVec.ofNat w e ≠ -1#w
  := by
  intro heq
  have hnat := congrArg BitVec.toNat heq
  rw [BitVec.neg_one_eq_allOnes, BitVec.toNat_allOnes, BitVec.toNat_ofNat,
    Nat.mod_eq_of_lt (by omega)] at hnat
  omega

/-- An exponent between the least one and that of infinity stands for a full mantissa. -/
theorem unpack_packComponents_full (sign : Sign) (ha : a + 2 < 2 ^ format.exponentBits)
    (mantissa : BitVec format.mantissaBitsWithoutImplicit) :
  unpack format (packComponents format sign (BitVec.ofNat _ (a + 1)) mantissa)
    = .finite sign (1#1 ++ mantissa).toNat (format.minExponent + a) (by simp)
  := by
  have hexponent : (BitVec.ofNat format.exponentBits (a + 1)).toNat = a + 1 := by
    rw [BitVec.toNat_ofNat, Nat.mod_eq_of_lt (by omega)]
  have hzero : BitVec.ofNat format.exponentBits (a + 1) ≠ 0#_ := by
    intro h
    rw [h, BitVec.toNat_ofNat, Nat.zero_mod] at hexponent
    cases hexponent
  unfold unpack
  simp only [unpackMantissa_packComponents, unpackExponent_packComponents, unpackSign_packComponents,
    Sign.ofBitVec_toBitVec, if_neg (ofNat_ne_negOne ha), if_neg hzero, hexponent]
  congr 1
  rw [minExponent_eq]
  omega

/-- The exponent zero stands for the magnitudes below a full mantissa. -/
theorem unpack_packComponents_zero (hbits : 1 < format.exponentBits) (sign : Sign)
    (mantissa : BitVec format.mantissaBitsWithoutImplicit) :
  unpack format (packComponents format sign 0#_ mantissa)
    = ofMagnitude format sign mantissa.toNat
  := by
  have hfour := four_le_two_pow hbits
  have hlt : mantissa.toNat < 2 ^ format.mantissaBits := by
    apply mantissa.isLt.trans_le
    apply Nat.pow_le_pow_right Nat.zero_lt_two
    unfold Format.mantissaBits
    omega
  unfold unpack
  simp only [unpackMantissa_packComponents, unpackExponent_packComponents, unpackSign_packComponents,
    Sign.ofBitVec_toBitVec, if_neg (ofNat_ne_negOne (show 0 + 1 < 2 ^ format.exponentBits by omega)), if_true]
  split
  · rename_i hzero
    rw [hzero, BitVec.toNat_ofNat, Nat.zero_mod, ofMagnitude_zero]
  · rename_i hzero
    rw [ofMagnitude_small sign (fun h => hzero (BitVec.eq_of_toNat_eq h)) hlt]
    congr 1
    rw [minExponent_eq, BitVec.toNat_ofNat, Nat.zero_mod]
    omega

/-- What fits comes out as it went in. -/
theorem unpack_pack_ofMagnitude (hbits : 1 < format.exponentBits) (sign : Sign)
    (h : Fits format n) :
  unpack format (pack format (ofMagnitude format sign n)) = ofMagnitude format sign n
  := by
  have hexponent := h.exponent
  by_cases hn : n = 0
  · rw [hn, ofMagnitude_zero]
    change unpack format (packComponents format sign 0#_ 0#_) = _
    rw [unpack_packComponents_zero hbits, BitVec.toNat_ofNat, Nat.zero_mod, ofMagnitude_zero]
  · have hlog := log2_div_gridExponent hn h.onGrid
    have hpos : 0 < n / 2 ^ gridExponent format n := div_gridExponent_pos hn
    rw [ofMagnitude_pos sign hn]
    unfold pack
    dsimp only
    rw [biasedExponent_eq, if_neg (by omega)]
    split
    · rename_i hfull
      rw [unpack_packComponents_full sign hexponent]
      congr 1
      rw [append_toNat, BitVec.toNat_ofNat]
      unfold Format.mantissaBits at hfull
      have hbound : (n / 2 ^ gridExponent format n).log2
          = format.mantissaBitsWithoutImplicit := by omega
      obtain ⟨hlow, hhigh⟩ := (Nat.log2_eq_iff hpos.ne').mp hbound
      rw [Nat.mod_eq_sub_mod hlow, Nat.mod_eq_of_lt (by omega)]
      omega
    · rename_i hsmall
      have hgrid : gridExponent format n = 0 := by
        have hdef : gridExponent format n = n.log2 + 1 - format.mantissaBits := rfl
        omega
      rw [unpack_packComponents_zero hbits, ← ofMagnitude_pos sign hn, BitVec.toNat_ofNat]
      congr 1
      rw [hgrid, pow_zero, Nat.div_one, Nat.mod_eq_of_lt]
      rw [hgrid, pow_zero, Nat.div_one] at hsmall
      unfold gridExponent Format.mantissaBits at hgrid
      unfold Format.mantissaBits at hsmall
      rw [← Nat.log2_lt hn]
      omega

/-! ### Comparing -/

/-- Numbers of a format compare by exponent first, and then by mantissa. -/
theorem compare_grid (hm : OnGrid format m) (hn : OnGrid format n) :
  (compare (format.minExponent + gridExponent format m)
      (format.minExponent + gridExponent format n)).then
    (compare (m / 2 ^ gridExponent format m) (n / 2 ^ gridExponent format n)) = compare m n
  := by
  rcases lt_trichotomy (gridExponent format m) (gridExponent format n) with hlt | heq | hgt
  · rw [Nat.compare_eq_lt.mpr (lt_of_gridExponent_lt hlt), Int.compare_eq_lt.mpr (by omega)]
    rfl
  · rw [heq, Int.compare_eq_eq.mpr rfl]
    obtain ⟨i, hi⟩ := hm
    obtain ⟨j, hj⟩ := hn
    rw [heq] at hi
    have hpos := Nat.two_pow_pos (gridExponent format n)
    change compare (m / _) (n / _) = _
    obtain ⟨c, hc⟩ : ∃ c, 2 ^ gridExponent format n = c := ⟨_, rfl⟩
    rw [hc] at hi hj hpos ⊢
    rw [hi, hj, Nat.mul_div_cancel_left _ hpos, Nat.mul_div_cancel_left _ hpos]
    rcases lt_trichotomy i j with hlt | rfl | hgt
    · rw [Nat.compare_eq_lt.mpr hlt, Nat.compare_eq_lt.mpr (Nat.mul_lt_mul_of_pos_left hlt hpos)]
    · rw [Nat.compare_eq_eq.mpr rfl, Nat.compare_eq_eq.mpr rfl]
    · rw [Nat.compare_eq_gt.mpr hgt, Nat.compare_eq_gt.mpr (Nat.mul_lt_mul_of_pos_left hgt hpos)]
  · rw [Nat.compare_eq_gt.mpr (lt_of_gridExponent_lt hgt), Int.compare_eq_gt.mpr (by omega)]
    rfl

theorem compare_neg_cast (m n : ℕ) :
  compare (-m : ℤ) (-n : ℤ) = (compare m n).swap
  := by
  rcases lt_trichotomy m n with hlt | rfl | hgt
  · rw [Nat.compare_eq_lt.mpr hlt, Int.compare_eq_gt.mpr (by omega)]
    rfl
  · rw [Nat.compare_eq_eq.mpr rfl, Int.compare_eq_eq.mpr rfl]
    rfl
  · rw [Nat.compare_eq_gt.mpr hgt, Int.compare_eq_lt.mpr (by omega)]
    rfl

theorem compare_cast (m n : ℕ) :
  compare (m : ℤ) (n : ℤ) = compare m n
  := by
  rcases lt_trichotomy m n with hlt | rfl | hgt
  · rw [Nat.compare_eq_lt.mpr hlt, Int.compare_eq_lt.mpr (by omega)]
  · rw [Nat.compare_eq_eq.mpr rfl, Int.compare_eq_eq.mpr rfl]
  · rw [Nat.compare_eq_gt.mpr hgt, Int.compare_eq_gt.mpr (by omega)]

theorem apply_zero (sign : Sign) :
  sign.apply (0 : ℕ) = 0
  := by
  cases sign <;> rfl

theorem compare_zero_ofMagnitude (sign other : Sign) (hn : n ≠ 0) :
  UnpackedFloat.compare (.zero sign) (ofMagnitude format other n)
      = some (compare 0 (other.apply n))
    ∧ UnpackedFloat.compare (ofMagnitude format other n) (.zero sign)
      = some (compare (other.apply n) 0)
  := by
  rw [ofMagnitude_pos other hn]
  have hpos : 0 < (n : ℤ) := by omega
  cases other with
  | positive =>
      change some Ordering.lt = some (compare 0 (n : ℤ))
        ∧ some Ordering.gt = some (compare (n : ℤ) 0)
      rw [Int.compare_eq_lt.mpr hpos, Int.compare_eq_gt.mpr hpos]
      exact ⟨rfl, rfl⟩
  | negative =>
      change some Ordering.gt = some (compare 0 (-n : ℤ))
        ∧ some Ordering.lt = some (compare (-n : ℤ) 0)
      rw [Int.compare_eq_gt.mpr (Int.neg_neg_of_pos hpos),
        Int.compare_eq_lt.mpr (Int.neg_neg_of_pos hpos)]
      exact ⟨rfl, rfl⟩

/-- Numbers of a format compare as the integers that they stand for. -/
theorem compare_ofMagnitude (sign other : Sign) (hm : OnGrid format m) (hn : OnGrid format n) :
  (ofMagnitude format sign m).compare (ofMagnitude format other n)
    = some (compare (sign.apply m) (other.apply n))
  := by
  by_cases hm0 : m = 0
  · rw [hm0, ofMagnitude_zero, apply_zero]
    by_cases hn0 : n = 0
    · rw [hn0, ofMagnitude_zero, apply_zero]
      rfl
    · apply (compare_zero_ofMagnitude sign other hn0).1
  · by_cases hn0 : n = 0
    · rw [hn0, ofMagnitude_zero, apply_zero]
      apply (compare_zero_ofMagnitude other sign hm0).2
    · have hpos : 0 < (m : ℤ) := by omega
      have hpos' : 0 < (n : ℤ) := by omega
      rw [ofMagnitude_pos sign hm0, ofMagnitude_pos other hn0]
      cases sign <;> cases other
      case negative.negative =>
        change some (Ordering.swap _) = some (compare (-m : ℤ) (-n : ℤ))
        rw [compare_grid hm hn, compare_neg_cast]
      case negative.positive =>
        change some Ordering.lt = some (compare (-m : ℤ) (n : ℤ))
        rw [Int.compare_eq_lt.mpr (by omega)]
      case positive.negative =>
        change some Ordering.gt = some (compare (m : ℤ) (-n : ℤ))
        rw [Int.compare_eq_gt.mpr (by omega)]
      case positive.positive =>
        change some (Ordering.then _ _) = some (compare (m : ℤ) (n : ℤ))
        rw [compare_grid hm hn, compare_cast]

end MachineNumber

end RevisedSimplex
