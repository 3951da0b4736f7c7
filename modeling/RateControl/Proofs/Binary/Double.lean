-- SUMMARY: Numbers of double precision: the constants of the formulas, and whole numbers of up to 53 digits.
import RateControl.Proofs.Binary.Representable

/-! # Double precision

What the formulas compute in double precision starts from whole numbers and a few constants. Whole numbers
below `2 ^ 53` are computed without rounding. -/

namespace RateControl.Binary

open Unpacked (Representable value)

/-! ## Format -/

theorem double_mantissaBits : (Lawful.format Float).mantissaBits = 53 := by decide

theorem two_pow_le_bound {k : Int} (hk : k ≤ 1023) :
    (2 : ℚ) ^ k ≤ 2 ^ ((Lawful.format Float).exponentBias : Int) := by
  have hbias : (Lawful.format Float).exponentBias = 1023 := by decide
  rw [hbias]
  exact (zpow_le_zpow_iff_right₀ (by norm_num)).2 hk

theorem minExponent_le {k : Int} (hk : -1074 ≤ k) : (Lawful.format Float).minExponent ≤ k := by
  have hmin : (Lawful.format Float).minExponent = -1074 := by decide
  rwa [hmin]

/-! ## Constants -/

theorem hasValue_zero : HasValue (0.0 : Float) 0 := by
  have hunpack : unpack (0.0 : Float) = .zero .positive := rfl
  constructor <;> rw [hunpack]
  · trivial
  · rfl

theorem hasValue_one : HasValue (1.0 : Float) (1 : Int) := by
  have hunpack : unpack (1.0 : Float) = .finite .positive (2 ^ 52) (-52) (by decide) := rfl
  constructor <;> rw [hunpack]
  · exact ⟨by decide, by decide, .inl (by decide)⟩
  · norm_num [value, Float.Model.UnpackedFloat.Sign.apply]

theorem hasValue_eight : HasValue (8.0 : Float) (8 : Int) := by
  have hunpack : unpack (8.0 : Float) = .finite .positive (2 ^ 52) (-49) (by decide) := rfl
  constructor <;> rw [hunpack]
  · exact ⟨by decide, by decide, .inl (by decide)⟩
  · norm_num [value, Float.Model.UnpackedFloat.Sign.apply]

/-! ## Whole numbers -/

variable {a b : Float} {m n : Int}

theorem representable_whole (hlow : -2 ^ 53 < n) (hhigh : n < 2 ^ 53) :
    Representable (Lawful.format Float) n :=
  representable_int (by rw [double_mantissaBits]; exact abs_lt.2 ⟨hlow, hhigh⟩)

theorem hasValue_whole (hlow : -2 ^ 53 < n) (hhigh : n < 2 ^ 53) :
    HasValue (Scalar.ofInt n : Float) n := by
  apply hasValue_ofInt
  rw [double_mantissaBits, ← Int.cast_abs, zpow_natCast]
  exact_mod_cast abs_lt.2 ⟨hlow, hhigh⟩

theorem hasValue_int32 (n : Int32) : HasValue (Scalar.ofInt n.toInt : Float) n.toInt := by
  have := n.toInt_lt
  have := n.le_toInt
  exact hasValue_whole (by omega) (by omega)

theorem HasValue.add_whole (ha : HasValue a m) (hb : HasValue b n) (hlow : -2 ^ 53 < m + n)
    (hhigh : m + n < 2 ^ 53) : HasValue (a + b) (m + n : Int) := by
  rw [Int.cast_add]
  exact ha.add hb (by exact_mod_cast representable_whole hlow hhigh)

theorem HasValue.sub_whole (ha : HasValue a m) (hb : HasValue b n) (hlow : -2 ^ 53 < m - n)
    (hhigh : m - n < 2 ^ 53) : HasValue (a - b) (m - n : Int) := by
  rw [Int.cast_sub]
  exact ha.sub hb (by exact_mod_cast representable_whole hlow hhigh)

theorem HasValue.mul_whole (ha : HasValue a m) (hb : HasValue b n) (hlow : -2 ^ 53 < m * n)
    (hhigh : m * n < 2 ^ 53) : HasValue (a * b) (m * n : Int) := by
  rw [Int.cast_mul]
  exact ha.mul hb (by exact_mod_cast representable_whole hlow hhigh)

end RateControl.Binary
