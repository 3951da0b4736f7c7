-- SUMMARY: How far the window of a blur reaches, for every width of single precision, and which windows have ends that are numbers of 64 bits.
import RateControl.Proofs.Binary.Single
import RateControl.Proofs.Blur.Window
import RateControl.Proofs.Validation

/-! # Width of a window

A second pass takes a blur of any width, and the reach of its windows is the greatest one there is for all blurs
from `2 ^ 62` on. Behind a window that reaches so far there is no room for its last position. -/

namespace RateControl

open Float.Model (Format UnpackedFloat)

-- ---------------------------------------------------------------------------
-- Products that may be too great
-- ---------------------------------------------------------------------------

/-- What is too great for a format is packed as infinity. -/
theorem Unpacked.unpack_pack_of_maxExponent_lt {fmt : Format} {s : UnpackedFloat.Sign} {m : Nat} {e : Int}
    (hm : 0 < m) (he : maxExponent fmt < e) :
    UnpackedFloat.unpack fmt (UnpackedFloat.pack fmt (.finite s m e hm)) = .infinity s := by
  have hcap := two_pow_exponentBits fmt
  have hover : 2 ^ fmt.exponentBits ≤ (e + fmt.exponentBias + fmt.mantissaBitsWithoutImplicit).toNat + 1 := by
    rw [maxExponent] at he
    omega
  rw [UnpackedFloat.pack, if_pos hover]
  exact unpack_packedInfinity s

namespace Binary

open Lawful
open Unpacked (Canonical nearest value maxExponent)

variable {α : Type} [Binary α] [Scalar α] [Lawful α] {a b : α} {x y : ℚ}

/-- Saturation hides the difference between what is too great for the format and what is too great for a number
    of whole digits. -/
theorem HasValue.truncate_mul (ha : HasValue a x) (hb : HasValue b y) (hx : 0 < x) (hy : 0 < y) {m : Nat} {e : Int}
    (hm : 0 < m) (h : Canonical (format α) m e) (hxy : x * y = m * 2 ^ e) {lo hi : Int}
    (hhi : (hi : ℚ) ≤ 2 ^ (maxExponent (format α) + 1)) :
    Scalar.truncate lo hi (a * b) = clamp lo hi ⌊x * y⌋ := by
  have hunpack : unpack (a * b) =
      UnpackedFloat.unpack (format α) (UnpackedFloat.pack (format α) (.finite .positive m e hm)) := by
    rw [ha.mul_eq hb hx hy, hxy, Unpacked.nearest_canonical _ hm h, Lawful.unpack_pack]
  by_cases he : e ≤ maxExponent (format α)
  · have hvalue : HasValue (a * b) (x * y) := by
      rw [Unpacked.unpack_pack (show Unpacked.Holds _ (.finite .positive m e hm) from ⟨h, he⟩)] at hunpack
      exact ⟨by rw [hunpack]; exact h, by rw [hunpack, hxy]; simp [value, UnpackedFloat.Sign.apply]⟩
    exact hvalue.truncate (mul_pos hx hy).le lo hi
  · rw [Unpacked.unpack_pack_of_maxExponent_lt hm (not_le.1 he)] at hunpack
    have hgreat : hi ≤ ⌊x * y⌋ := by
      rw [Int.le_floor, hxy]
      have hpow : (2 : ℚ) ^ (maxExponent (format α) + 1) ≤ 2 ^ e := zpow_le_zpow_right₀ (by norm_num) (by omega)
      have hone : (1 : ℚ) ≤ m := by exact_mod_cast hm
      nlinarith [zpow_pos (show (0 : ℚ) < 2 by norm_num) e]
    rw [truncate_eq, hunpack, Binary.truncate, UnpackedFloat.toInt]
    simp only [clamp, min_self, min_eq_left hgreat]

end Binary

namespace Single

open Binary (HasValue unpack)
open Unpacked (Canonical value maxExponent Representable)

theorem hasValue_four : HasValue (4.0 : Float32) 4 := by
  have hunpack : unpack (4.0 : Float32) = .finite .positive (2 ^ 23) (-21) (by decide) := rfl
  constructor <;> rw [hunpack]
  · exact ⟨by decide, by decide, .inl (by decide)⟩
  · norm_num [value, UnpackedFloat.Sign.apply]

variable {blur : Float32} {x : ℚ}

/-- A number of single precision that is finite has a value. -/
theorem hasValue_of_isFinite (h : Scalar.isFinite blur = true) : ∃ x, HasValue blur x := by
  have hfinite : Scalar.isFinite blur = (unpack blur).isFinite := rfl
  obtain ⟨s, hs⟩ | hs | hx := Binary.unpack_cases blur
  · rw [hfinite, hs] at h
    cases h
  · rw [hfinite, hs] at h
    cases h
  · exact hx

/-- Numbers that are not tiny have all the digits of a mantissa, also four times as great. -/
theorem truncate_fourfold (hb : HasValue blur x) (hx : 0 ≤ x) :
    Scalar.truncate 0 18446744073709551615 (blur * 4.0) = min ⌊4 * x⌋ 18446744073709551615 := by
  have hclamp : Scalar.truncate 0 18446744073709551615 (blur * 4.0) =
      Binary.clamp 0 18446744073709551615 ⌊x * 4⌋ := by
    obtain rfl | hpos := hx.eq_or_lt
    · refine HasValue.truncate (hb.mul hasValue_four ?_) (by norm_num) _ _
      exact ⟨0, 0, 0, by norm_num, by norm_num, by decide, by decide⟩
    obtain ⟨m, e, hm, -, hc, rfl⟩ := hb.finite hpos
    have hfour : (m : ℚ) * 2 ^ e * 4 = m * 2 ^ (e + 2) := by
      rw [zpow_add₀ (by norm_num)]
      ring
    obtain hnormal | rfl := hc.normal
    · refine hb.truncate_mul hasValue_four hpos (by norm_num) hm ⟨hc.lt, hc.least.trans (by omega), .inl hnormal⟩
        hfour ?_
      have hmax : maxExponent (Binary.Lawful.format Float32) = 104 := by decide
      rw [hmax]
      norm_num
    · refine HasValue.truncate (hb.mul hasValue_four ?_) (by positivity) _ _
      rw [hfour]
      refine ⟨m, _, -123, by norm_cast, ?_, by decide, by decide⟩
      have hmin : (Binary.Lawful.format Float32).minExponent + 2 = -147 := by decide
      have hlt : (m : ℚ) < 2 ^ 24 := by exact_mod_cast hc.lt
      rw [hmin, abs_of_pos (by positivity)]
      calc (m : ℚ) * 2 ^ (-147 : Int) < 2 ^ 24 * 2 ^ (-147 : Int) := by gcongr
        _ = 2 ^ (-123 : Int) := by norm_num
  have hnonneg : 0 ≤ ⌊4 * x⌋ := Int.floor_nonneg.2 (by positivity)
  rw [hclamp, mul_comm, Binary.clamp]
  omega

end Single

-- ---------------------------------------------------------------------------
-- Reach
-- ---------------------------------------------------------------------------

namespace Blur

open Binary (HasValue)

/-- The reach rounds half of an odd number down. -/
theorem reach_eq {blur : Float32} {x : ℚ} (hb : HasValue blur x) (hx : 0 ≤ x) :
    (reach blur : ℤ) = min ⌊2 * x⌋ (2 ^ 63 - 1) := by
  have hodd (n : Nat) : (n ||| 1) / 2 = n / 2 := by simp [Nat.or_div_two]
  have hhalf : ⌊4 * x⌋ / 2 = ⌊2 * x⌋ := by
    have h := Int.floor_div_natCast (4 * x) 2
    rw [Nat.cast_ofNat, show 4 * x / 2 = 2 * x by ring] at h
    exact h.symm
  rw [reach, hodd, Scalar.toNat64, Single.truncate_fourfold hb hx]
  have hnonneg : 0 ≤ ⌊4 * x⌋ := Int.floor_nonneg.2 (by positivity)
  omega

/-- Whatever the width of a second pass, a window has a first position. It has a last one, and is the window of the
    blur around its position, unless the sum wraps around; then it is empty. No window in a table of less than
    `2 ^ 48` pictures wraps around just when the blur is a little below `2 ^ 62`. -/
theorem windows_fit (s : Settings Float32) (h : s.violation? true = none) :
    ∃ x : ℚ, HasValue s.blur x ∧ 0 ≤ x ∧ (reach s.blur : ℤ) = min ⌊2 * x⌋ (2 ^ 63 - 1) ∧
      (∀ i < 2 ^ 48, (first (reach s.blur) i).toInt = i - reach s.blur) ∧
      (∀ i < 2 ^ 48, Fits (reach s.blur) i ↔ i + reach s.blur < 2 ^ 63) ∧
      (∀ i < 2 ^ 48, Fits (reach s.blur) i →
        ∀ j < 2 ^ 48, inWindow (reach s.blur) i j = isNear (reach s.blur) i j) ∧
      (∀ i < 2 ^ 48, ¬ Fits (reach s.blur) i → ∀ j, inWindow (reach s.blur) i j = false) ∧
      ((∀ i < 2 ^ 48, Fits (reach s.blur) i ∧ inWindow (reach s.blur) i i = true) ↔
        2 * x < 2 ^ 63 - 2 ^ 48 + 1) := by
  obtain ⟨hfinite, hnonneg, -⟩ := s.blur_bounds h
  obtain ⟨x, hx⟩ := Single.hasValue_of_isFinite hfinite
  have hx0 : 0 ≤ x := not_lt.1 fun hlt => hnonneg ((hx.lt_iff Single.hasValue_zero).2 hlt)
  have hreach := reach_eq hx hx0
  have hlt : reach s.blur < 2 ^ 63 := by omega
  refine ⟨x, hx, hx0, hreach, fun i hi => toInt_first (by omega) hlt, fun i hi => fits_iff (by omega) hlt,
    fun i _ hfits j hj => inWindow_eq_isNear (by omega) hfits,
    fun i hi hfits j => inWindow_eq_false (by omega) hlt hfits, ?_⟩
  have hwidth : 2 * x < 2 ^ 63 - 2 ^ 48 + 1 ↔ ⌊2 * x⌋ < 2 ^ 63 - 2 ^ 48 + 1 := by
    rw [Int.floor_lt]
    norm_num
  rw [hwidth]
  constructor
  · intro hall
    have hlast := (fits_iff (by omega) hlt).1 (hall (2 ^ 48 - 1) (by omega)).1
    omega
  · intro hle i hi
    have hfits : Fits (reach s.blur) i := (fits_iff (by omega) hlt).2 (by omega)
    exact ⟨hfits, by rw [inWindow_eq_isNear (by omega) hfits, isNear_self]⟩

theorem windows_fit_standard :
    let s : Settings Float32 := .standard
    s.violation? true = none ∧ ∀ i < 2 ^ 48, Fits (reach s.blur) i ∧ inWindow (reach s.blur) i i = true := by
  intro s
  have hvalid : s.violation? true = none := by
    rw [← Option.isNone_iff_eq_none]
    decide +kernel
  obtain ⟨x, -, -, hreach, -, -, -, -, hiff⟩ := windows_fit s hvalid
  have hone : reach s.blur = 1 := by decide +kernel
  have hfloor : ⌊2 * x⌋ < 2 := by omega
  rw [Int.floor_lt] at hfloor
  exact ⟨hvalid, hiff.2 (hfloor.trans (by norm_num))⟩

/-- At a blur of `2 ^ 62` only the window of the first picture has a last position. -/
theorem window_wraps_at_great_blur :
    let s : Settings Float32 := { Settings.standard with blur := 4611686018427387904.0 }
    (s.violation? true).isNone = true ∧ reach s.blur = 9223372036854775807 ∧
      (last (reach s.blur) 1).toInt ≠ 1 + reach s.blur ∧ inWindow (reach s.blur) 1 1 = false := by
  decide +kernel

end Blur

end RateControl
