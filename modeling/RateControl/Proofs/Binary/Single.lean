-- SUMMARY: Numbers of single precision: the constants 0 and 1, whole numbers of 64 bits, and their quotients.
import RateControl.Proofs.Numeral.Value

/-! # Single precision

Whole numbers of more than 24 digits are rounded, and so is a quotient of whole numbers. Rounding keeps the
order, so a part of a whole is still between 0 and 1. -/

namespace RateControl.Single

open Binary (HasValue pack unpack)
open Unpacked (Rounded nearest value)

/-! ## Constants -/

theorem hasValue_zero : HasValue (0.0 : Float32) 0 := by
  have hunpack : unpack (0.0 : Float32) = .zero .positive := rfl
  constructor <;> rw [hunpack]
  · trivial
  · rfl

theorem hasValue_one : HasValue (1.0 : Float32) 1 := by
  have hunpack : unpack (1.0 : Float32) = .finite .positive (2 ^ 23) (-23) (by decide) := rfl
  constructor <;> rw [hunpack]
  · exact ⟨by decide, by decide, .inl (by decide)⟩
  · norm_num [value, Float.Model.UnpackedFloat.Sign.apply]

theorem one_eq_nearest : (1.0 : Float32) = pack (nearest .binary32 .positive 1) := by
  have h := Binary.ofScientific_fraction (n := 10) (e := 1) (by decide) (by decide)
  norm_num at h
  exact h

/-! ## Whole numbers -/

variable {n d : Nat}

theorem hasValue_ofNat_zero : HasValue (Scalar.ofNat 0 : Float32) 0 := hasValue_zero

theorem hasValue_ofNat (hpos : 0 < n) (hn : n < 2 ^ 64) :
    HasValue (Scalar.ofNat n : Float32) (value (nearest .binary32 .positive n)) := by
  have hpos' : (0 : ℚ) < n := by exact_mod_cast hpos
  have hbound : |(n : ℚ)| ≤ 2 ^ (127 : Int) := by
    rw [abs_of_pos hpos']
    exact le_trans (by exact_mod_cast hn.le) (by norm_num : (2 : ℚ) ^ 64 ≤ 2 ^ (127 : Int))
  have hround : Rounded .binary32 n (nearest .binary32 .positive n) := Unpacked.rounded_nearest hpos'
  have hunpack : unpack (Scalar.ofNat n : Float32) = nearest .binary32 .positive n :=
    (congrArg unpack (Binary.ofScientific_whole hpos)).trans (hround.unpack_pack (by decide) hbound)
  exact ⟨by rw [hunpack]; exact hround.normalized, congrArg value hunpack⟩

/-- Powers of two are not rounded, and so numbers between two of them stay there. -/
theorem nearest_bounds (hpos : 0 < n) (hn : n < 2 ^ 64) :
    1 ≤ value (nearest .binary32 .positive n) ∧ value (nearest .binary32 .positive n) ≤ 2 ^ 64 := by
  have hone : (1 : ℚ) ≤ n := by exact_mod_cast hpos
  have hbound : |(n : ℚ)| ≤ 2 ^ (64 : Int) := by
    rw [abs_of_nonneg (zero_le_one.trans hone)]
    exact_mod_cast hn.le
  have hround : Rounded .binary32 n (nearest .binary32 .positive n) :=
    Unpacked.rounded_nearest (zero_lt_one.trans_le hone)
  have hlow := hround.zpow_le_value (k := 0) (by decide) (by simpa using hone)
  have hhigh := hround.abs_value_le (by decide) hbound
  exact ⟨by simpa using hlow, (le_abs_self _).trans (by simpa using hhigh)⟩

/-- A part of a whole is not negative and no more than the whole, and if there is any it is not vanishingly
    small. -/
theorem hasValue_part (hle : n ≤ d) (hpos : 0 < d) (hd : d < 2 ^ 64) :
    ∃ x y, HasValue (Scalar.ofNat n : Float32) x ∧ HasValue (Scalar.ofNat d : Float32) y ∧
      0 ≤ x ∧ x ≤ y ∧ 0 < y ∧ (0 < n → (2 : ℚ) ^ (-64 : Int) ≤ x / y) := by
  obtain ⟨hwhole, hbound⟩ := nearest_bounds hpos hd
  obtain rfl | hn := n.eq_zero_or_pos
  · exact ⟨0, _, hasValue_ofNat_zero, hasValue_ofNat hpos hd, le_rfl, by linarith, by linarith,
      fun h => absurd h (lt_irrefl 0)⟩
  · have hpart := (nearest_bounds hn (hle.trans_lt hd)).1
    refine ⟨_, _, hasValue_ofNat hn (hle.trans_lt hd), hasValue_ofNat hpos hd, by linarith, ?_, by linarith,
      fun _ => ?_⟩
    · exact Unpacked.value_nearest_mono (by exact_mod_cast hn) (by exact_mod_cast hle)
    · rw [le_div_iff₀ (by linarith), zpow_neg, inv_mul_le_iff₀ (by positivity)]
      have hscaled := mul_le_mul_of_nonneg_left hpart (show (0 : ℚ) ≤ 2 ^ 64 by positivity)
      norm_num at hbound hscaled ⊢
      linarith

/-! ## Quotients -/

section Quotients

variable (hle : n ≤ d) (hpos : 0 < d) (hd : d < 2 ^ 64)

include hle hpos hd

/-- The quotient of a part by the whole is rounded from a number between 0 and 1. -/
theorem rounded_part : ∃ z : ℚ, Rounded .binary32 z (unpack (Scalar.ofNat n / Scalar.ofNat d : Float32)) ∧
    0 ≤ z ∧ |z| ≤ 2 ^ (0 : Int) ∧ (0 < n → (2 : ℚ) ^ (-64 : Int) ≤ z) := by
  obtain ⟨x, y, hx, hy, hnonneg, hxy, hypos, hleast⟩ := hasValue_part hle hpos hd
  have hz : 0 ≤ x / y := div_nonneg hnonneg hypos.le
  have hone : |x / y| ≤ 2 ^ (0 : Int) := by
    rw [abs_of_nonneg hz, zpow_zero]
    exact (div_le_one hypos).2 hxy
  exact ⟨x / y, hx.rounded_div hy hypos.ne' (hone.trans (zpow_le_zpow_right₀ (by norm_num) (by decide))), hz, hone, hleast⟩

/-- A part of a whole is between 0 and 1. -/
theorem part_bounds :
    (0.0 : Float32) ≤ Scalar.ofNat n / Scalar.ofNat d ∧ Scalar.ofNat n / Scalar.ofNat d ≤ (1.0 : Float32) := by
  obtain ⟨z, hround, hz, hone, -⟩ := rounded_part hle hpos hd
  have hvalue := Binary.HasValue.of_rounded (α := Float32) hround
  rw [hasValue_zero.le_iff hvalue, hvalue.le_iff hasValue_one]
  exact ⟨hround.value_nonneg hz, (le_abs_self _).trans (by simpa using hround.abs_value_le (by decide) hone)⟩

/-- A part is not rounded to 0. -/
theorem part_ne_zero (hn : 0 < n) : (Scalar.ofNat n / Scalar.ofNat d : Float32) ≠ 0.0 := by
  obtain ⟨z, hround, -, -, hleast⟩ := rounded_part hle hpos hd
  intro hzero
  have hvalue := hround.zpow_le_value (by decide) (hleast hn)
  rw [hzero, hasValue_zero.eq] at hvalue
  exact absurd hvalue (by norm_num)

end Quotients

/-- The whole is 1. -/
theorem part_self (hpos : 0 < d) (hd : d < 2 ^ 64) :
    (Scalar.ofNat d / Scalar.ofNat d : Float32) = 1.0 := by
  obtain ⟨-, y, -, hy, -, -, hypos, -⟩ := hasValue_part le_rfl hpos hd
  rw [hy.div_eq hy hypos hypos, div_self hypos.ne', one_eq_nearest]
  rfl

end RateControl.Single
