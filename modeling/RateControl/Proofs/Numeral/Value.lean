-- SUMMARY: The single-precision value of a positional decimal is the number nearest to its magnitude.
import RateControl.Numeral.Decimal
import RateControl.Proofs.Binary.Nearest

/-! # Values of decimals

A decimal of few digits is computed from two numbers that are exact, all others from their digits. Either
way the value is the number nearest to the magnitude, so decimals of one magnitude and sign have one value. -/

namespace RateControl

open Float.Model (Format UnpackedFloat)
open Float.Model.UnpackedFloat (Sign)
open Unpacked (nearest)

namespace Binary

/-! ## Exact numbers -/

theorem hasValue_toFloat32 {n : Nat} (hn : n < 2 ^ 23) : HasValue n.toUInt64.toFloat32 n := by
  have hround : Unpacked.Rounded .binary32 (n : Int) (UnpackedFloat.ofNat .binary32 n) := by
    have h := Unpacked.rounded_normalize .binary32 n 0 .positive
    rwa [zpow_zero, mul_one] at h
  have hbias : 0 < Format.binary32.exponentBias := by decide
  have hbits : |((n : Int) : ℚ)| < 2 ^ (Format.binary32.mantissaBits : Int) := by
    rw [Int.cast_natCast, abs_of_nonneg (by positivity), zpow_natCast]
    exact_mod_cast hn.trans (by decide)
  have hrange : (2 : ℚ) ^ (Format.binary32.mantissaBits : Int) ≤ 2 ^ (Format.binary32.exponentBias : Int) :=
    zpow_le_zpow_right₀ (by norm_num) (by decide)
  have hunpack : unpack n.toUInt64.toFloat32 = UnpackedFloat.ofNat .binary32 n := by
    rw [← hround.unpack_pack hbias (hbits.le.trans hrange), ← ofUInt64_toUInt64 (by omega)]
    rfl
  constructor
  · rw [hunpack]
    exact hround.normalized
  · rw [hunpack]
    exact_mod_cast hround.value_eq hbias hbits

/-- A power of ten, as a power of five that has all digits of a mantissa with `k` more binary places. -/
theorem hasValue_power (e k : Nat) (he : e < Float32.exactlyRepresentablePowersOfTen.size)
    (h : unpack Float32.exactlyRepresentablePowersOfTen[e] =
      .finite .positive (5 ^ e * 2 ^ k) (e - k) (by positivity))
    (hdigits : 2 ^ 23 ≤ 5 ^ e * 2 ^ k ∧ 5 ^ e * 2 ^ k < 2 ^ 24) :
    HasValue Float32.exactlyRepresentablePowersOfTen[e] (10 ^ e) := by
  have hk : k < 24 := by
    rw [← Nat.pow_lt_pow_iff_right (by decide : 1 < 2)]
    exact (Nat.le_mul_of_pos_left (2 ^ k) (by positivity)).trans_lt hdigits.2
  constructor <;> rw [h]
  · refine ⟨hdigits.2, ?_, .inl hdigits.1⟩
    change (-149 : Int) ≤ _
    omega
  · simp only [Unpacked.value, Sign.apply]
    push_cast
    rw [mul_assoc, ← zpow_natCast 2 k, ← zpow_add₀ (by norm_num), add_sub_cancel, zpow_natCast, ← mul_pow]
    norm_num

theorem hasValue_powerOfTen {e : Nat} (he : e < Float32.exactlyRepresentablePowersOfTen.size) :
    HasValue Float32.exactlyRepresentablePowersOfTen[e] (10 ^ e) := by
  have hsize : e < 11 := he
  interval_cases e
  · exact hasValue_power 0 23 (by decide) rfl (by decide)
  · exact hasValue_power 1 21 (by decide) rfl (by decide)
  · exact hasValue_power 2 19 (by decide) rfl (by decide)
  · exact hasValue_power 3 17 (by decide) rfl (by decide)
  · exact hasValue_power 4 14 (by decide) rfl (by decide)
  · exact hasValue_power 5 12 (by decide) rfl (by decide)
  · exact hasValue_power 6 10 (by decide) rfl (by decide)
  · exact hasValue_power 7 7 (by decide) rfl (by decide)
  · exact hasValue_power 8 5 (by decide) rfl (by decide)
  · exact hasValue_power 9 3 (by decide) rfl (by decide)
  · exact hasValue_power 10 0 (by decide) rfl (by decide)

/-! ## Decimals without an exponent -/

theorem ofScientific_whole {n : Nat} (hn : 0 < n) :
    Float32.ofScientific n false 0 = pack (nearest .binary32 .positive n) := by
  have hpos : (0 : ℚ) < n := by exact_mod_cast hn
  rw [Float32.ofScientific]
  split
  · next h =>
    have hmul := (hasValue_toFloat32 h.1).mul_eq (hasValue_powerOfTen (e := 0) (by decide)) hpos (by norm_num)
    rw [pow_zero, mul_one] at hmul
    exact hmul
  · have hexp : (0 : Int) < 2 ^ Format.binary32.exponentBits := by decide
    have hmul := Unpacked.mul_eq_nearest .positive .positive (Unpacked.shiftLeft_pos hn) Nat.one_pos
      (Unpacked.shifted_digits .binary32 hn)
    have hvalue : ((n <<< Format.binary32.mantissaBits : Nat) : ℚ) *
        2 ^ (-(Format.binary32.mantissaBits : Int)) * ((1 : Nat) * 2 ^ (0 : Int)) = n := by
      rw [Nat.shiftLeft_eq, zpow_neg, zpow_natCast]
      push_cast
      field_simp
    rw [hvalue] at hmul
    have hscientific : UnpackedFloat.ofScientific .binary32 n 0 = nearest .binary32 .positive n := by
      rw [UnpackedFloat.ofScientific, dif_neg hn.ne', if_neg (by omega), if_neg (by omega), if_pos le_rfl]
      exact hmul
    rw [← hscientific]
    rfl

/-- A decimal with so many places is below all numbers. -/
theorem fraction_lt {n e : Nat} (h : 256 + n.log2 < e) :
    (n : ℚ) / 10 ^ e < 2 ^ (Format.binary32.minExponent - 1) := by
  have hmin : Format.binary32.minExponent - 1 = -150 := by decide
  have hlog : (n : ℚ) < 2 ^ (n.log2 + 1) := by exact_mod_cast Nat.lt_log2_self
  rw [hmin, div_lt_iff₀ (by positivity)]
  calc (n : ℚ) < 2 ^ (n.log2 + 1) := hlog
    _ ≤ 2 ^ (-150 : Int) * 2 ^ e := by
      rw [← zpow_natCast, ← zpow_natCast, ← zpow_add₀ (by norm_num)]
      exact zpow_le_zpow_right₀ (by norm_num) (by push_cast; omega)
    _ ≤ 2 ^ (-150 : Int) * 10 ^ e := by
      gcongr
      norm_num

theorem ofScientific_fraction {n e : Nat} (hn : 0 < n) (he : 0 < e) :
    Float32.ofScientific n true e = pack (nearest .binary32 .positive (n / 10 ^ e)) := by
  have hpos : (0 : ℚ) < n := by exact_mod_cast hn
  rw [Float32.ofScientific]
  split
  · next h =>
    exact (hasValue_toFloat32 h.1).div_eq (hasValue_powerOfTen (Nat.lt_succ_of_le h.2)) hpos (by positivity)
  · have hexp : (2 : Int) ^ Format.binary32.exponentBits = 256 := by decide
    have hscientific : UnpackedFloat.ofScientific .binary32 n (-e) =
        nearest .binary32 .positive (n / 10 ^ e) := by
      rw [UnpackedFloat.ofScientific, dif_neg hn.ne', hexp, if_neg (by omega)]
      split
      · exact (Unpacked.nearest_of_lt _ (by positivity) (fraction_lt (by omega))).symm
      · have hdiv : UnpackedFloat.div .binary32 (.finite .positive n 0 hn)
            (.finite .positive (10 ^ e) 0 (Nat.pow_pos (by decide))) = _ :=
          Unpacked.div_eq_nearest _ _ hn (Nat.pow_pos (by decide))
        rw [zpow_zero, mul_one, mul_one, Nat.cast_pow, Nat.cast_ofNat] at hdiv
        simp only [neg_neg, Int.toNat_natCast]
        rw [if_neg (by omega)]
        exact hdiv
    obtain ⟨k, rfl⟩ : ∃ k, e = k + 1 := ⟨e - 1, by omega⟩
    rw [← hscientific]
    rfl

end Binary

namespace Decimal

open Binary (pack unpack)

variable {d d' : Decimal}

/-- The number that the digits and the exponent stand for. -/
def magnitude (d : Decimal) : ℚ := d.digits * 10 ^ d.exponent

theorem magnitude_pos : 0 < d.magnitude ↔ 0 < d.digits := by
  rw [magnitude, mul_pos_iff_of_pos_right (by positivity), Nat.cast_pos]

/-- The value is the nearest number. -/
theorem value_eq (hexp : d.exponent ≤ 0) (hdigits : 0 < d.digits) : (d.value : Float32) =
    if d.negative then -pack (nearest .binary32 .positive d.magnitude)
    else pack (nearest .binary32 .positive d.magnitude) := by
  suffices h : (OfScientific.ofScientific d.digits (d.exponent < 0) d.exponent.natAbs : Float32) =
      pack (nearest .binary32 .positive d.magnitude) by
    rw [value, h]
  obtain ⟨k, hk⟩ : ∃ k : Nat, d.exponent = -k := ⟨d.exponent.natAbs, by omega⟩
  rw [magnitude, hk, Int.natAbs_neg, Int.natAbs_natCast, zpow_neg, zpow_natCast, ← div_eq_mul_inv]
  by_cases hzero : k = 0
  · rw [hzero, pow_zero, div_one]
    exact Binary.ofScientific_whole hdigits
  · rw [decide_eq_true (by omega)]
    exact Binary.ofScientific_fraction hdigits (Nat.pos_of_ne_zero hzero)

@[simp] theorem negative_unscaled (d : Decimal) : d.unscaled.negative = d.negative := by
  unfold unscaled
  split <;> rfl

theorem exponent_unscaled_le (d : Decimal) : d.unscaled.exponent ≤ 0 := by
  unfold unscaled
  split
  · exact le_rfl
  · omega

theorem digits_unscaled_pos (h : 0 < d.digits) : 0 < d.unscaled.digits := by
  unfold unscaled
  split
  · exact Nat.mul_pos h (Nat.pow_pos (by decide))
  · exact h

@[simp] theorem magnitude_unscaled (d : Decimal) : d.unscaled.magnitude = d.magnitude := by
  unfold unscaled
  split
  · next hexp =>
    obtain ⟨k, hk⟩ := Int.eq_ofNat_of_zero_le hexp
    simp [magnitude, hk]
  · rfl

/-- Decimals of one sign and magnitude have one value. -/
theorem value_unscaled_congr (hnegative : d.negative = d'.negative) (hmagnitude : d.magnitude = d'.magnitude)
    (hdigits : 0 < d.digits) : (d.unscaled.value : Float32) = d'.unscaled.value := by
  have hdigits' : 0 < d'.digits := by rwa [← magnitude_pos, ← hmagnitude, magnitude_pos]
  rw [value_eq d.exponent_unscaled_le (digits_unscaled_pos hdigits),
    value_eq d'.exponent_unscaled_le (digits_unscaled_pos hdigits')]
  simp only [negative_unscaled, magnitude_unscaled, hnegative, hmagnitude]

/-- A decimal of the exact magnitude has the number as its value. -/
theorem value_unscaled_of_magnitude {x : Float32} {s : Sign} {m : Nat} {e : Int} {hm : 0 < m}
    (hnegative : d.negative = (s matches .negative)) (hx : unpack x = .finite s m e hm)
    (hmagnitude : d.magnitude = m * 2 ^ e) : (d.unscaled.value : Float32) = x := by
  have hdigits : 0 < d.digits := by
    rw [← magnitude_pos, hmagnitude]
    exact Unpacked.value_pos hm
  have hholds := Binary.holds x
  rw [hx] at hholds
  have hnearest (s' : Sign) : nearest .binary32 s' (m * 2 ^ e) = .finite s' m e hm :=
    Unpacked.nearest_canonical s' hm hholds.1
  have hpack (s' : Sign) : unpack (pack (.finite s' m e hm) : Float32) = .finite s' m e hm :=
    @Unpacked.unpack_pack .binary32 (.finite s' m e hm) hholds
  apply @Binary.Lawful.unpack_injective Float32 _ _ _
  rw [value_eq d.exponent_unscaled_le (digits_unscaled_pos hdigits), negative_unscaled, magnitude_unscaled,
    hnegative, hmagnitude, hnearest, hx]
  cases s with
  | positive => exact hpack .positive
  | negative =>
    have hneg : unpack (-pack (.finite .positive m e hm) : Float32) =
        unpack (pack (unpack (pack (.finite .positive m e hm) : Float32)).neg : Float32) := rfl
    rw [if_pos rfl, hneg, hpack]
    exact hpack .negative

end Decimal
end RateControl
