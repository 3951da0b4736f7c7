-- SUMMARY: Operations that need no rounding, and the whole parts of binary numbers.
import RateControl.Proofs.Binary.Scalars

/-! # Exact results

A format represents a number that is a multiple of the quantum of its size. Where it represents the exact
result of an operation, nothing is rounded. So whole numbers are computed exactly as long as they have no
more digits than a mantissa, and so are multiples of any other power of two. -/

namespace RateControl

open Float.Model (Format UnpackedFloat)
open Float.Model.UnpackedFloat

namespace Unpacked

variable {fmt : Format} {a u : UnpackedFloat} {x : ℚ}

/-! ## Representable numbers -/

/-- The number is in range, and a multiple of the quantum of its size. -/
def Representable (fmt : Format) (x : ℚ) : Prop :=
  ∃ n j k : Int, x = n * 2 ^ j ∧ |x| < 2 ^ k ∧ fmt.targetExponent k ≤ j ∧ k ≤ fmt.exponentBias

namespace Representable

theorem abs_le (h : Representable fmt x) : |x| ≤ 2 ^ (fmt.exponentBias : Int) := by
  obtain ⟨-, -, k, -, hlt, -, hk⟩ := h
  exact hlt.le.trans ((zpow_le_zpow_iff_right₀ (by norm_num)).2 hk)

theorem value_eq (h : Representable fmt x) (hu : Rounded fmt x u) : value u = x := by
  obtain ⟨n, j, k, hx, hlt, hj, -⟩ := h
  obtain ⟨t, hnear, ht⟩ := hu.near
  exact hnear.eq_of_eq ((ht k hlt).trans hj) hx

/-- Whole numbers with no more digits than a mantissa. -/
theorem intCast {n : Int} (hfmt : fmt.mantissaBits ≤ fmt.exponentBias)
    (hn : |n| < 2 ^ fmt.mantissaBits) : Representable fmt n := by
  have hmin := minExponent_eq fmt
  refine ⟨n, 0, fmt.mantissaBits, by simp, ?_, ?_, by omega⟩
  · rw [← Int.cast_abs, zpow_natCast]
    exact_mod_cast hn
  · have := fmt.hm
    rw [Format.targetExponent]
    omega

end Representable

/-! ## Whole parts -/

/-- The whole part of a whole number is the number. -/
theorem toInt_eq (ha : Normalized fmt a) {n : Int} (hn : value a = n) (lo hi : Int) :
    a.toInt lo hi = n := by
  cases a with
  | infinity s => cases ha
  | notANumber => cases ha
  | zero s =>
    have hzero : (n : ℚ) = 0 := hn.symm
    rw [toInt, ← Int.cast_eq_zero.1 hzero]
  | finite s m e hm =>
    rw [toInt, roundToInt_eq]
    cases s with
    | positive =>
      have hm : (m : ℚ) * 2 ^ e = n := by simpa [value, Sign.apply] using hn
      rw [hm, Int.floor_intCast, Sign.apply]
    | negative =>
      have hm : (m : ℚ) * 2 ^ e = (-n : Int) := by
        push_cast [← hn, value, Sign.apply]
        ring
      rw [hm, Int.floor_intCast, Sign.apply, neg_neg]

/-- The whole part of a number that is not negative. -/
theorem toInt_of_nonneg (ha : Normalized fmt a) (h : 0 ≤ value a) (lo hi : Int) :
    a.toInt lo hi = ⌊value a⌋ := by
  cases a with
  | infinity s => cases ha
  | notANumber => cases ha
  | zero s => exact Int.floor_zero.symm
  | finite s m e hm =>
    cases s with
    | positive => simp [toInt, roundToInt_eq, Sign.apply, value]
    | negative =>
      have hpos := value_pos (e := e) hm
      simp only [value, Sign.apply] at h
      push_cast at h
      linarith

/-- The least whole number above a number that is not negative. -/
theorem ceiling_of_nonneg (ha : Normalized fmt a) (h : 0 ≤ value a) (lo hi : Int) :
    Binary.ceiling lo hi a = Binary.clamp lo hi ⌈value a⌉ := by
  rw [Binary.ceiling, toInt_of_nonneg ha h]
  congr 1
  by_cases hwhole : ∃ n : Int, value a = n
  · rw [(hasFraction_eq_false_iff ha).2 hwhole]
    obtain ⟨n, hn⟩ := hwhole
    simp [hn]
  · have hfrac : Binary.hasFraction a = true := by
      rwa [← hasFraction_eq_false_iff ha, Bool.not_eq_false] at hwhole
    have hsign : Binary.isNegative a = false := by
      cases a with
      | infinity s => cases ha
      | notANumber => cases ha
      | zero s => cases hfrac
      | finite s m e hm =>
        cases s with
        | positive => rfl
        | negative =>
          have hpos := value_pos (e := e) hm
          simp only [value, Sign.apply] at h
          push_cast at h
          linarith
    have hne : (⌊value a⌋ : ℚ) ≠ value a := fun heq => hwhole ⟨_, heq.symm⟩
    have hceil : ⌈value a⌉ = ⌊value a⌋ + 1 := by
      refine le_antisymm (Int.ceil_le_floor_add_one _) (Int.add_one_le_iff.2 (Int.floor_lt.2 ?_))
      exact lt_of_le_of_ne (Int.le_ceil _) fun heq => hwhole ⟨_, heq⟩
    rw [hfrac, hsign, hceil]
    rfl

end Unpacked

namespace Binary

open Lawful
open Unpacked (Representable value)

variable {α : Type} [Binary α] [Scalar α] [Lawful α] {a b : α} {x y : ℚ}

/-! ## Operations without rounding -/

theorem HasValue.add (ha : HasValue a x) (hb : HasValue b y)
    (h : Representable (format α) (x + y)) : HasValue (a + b) (x + y) := by
  have hround := ha.rounded_add hb h.abs_le
  exact ⟨hround.normalized, h.value_eq hround⟩

theorem HasValue.sub (ha : HasValue a x) (hb : HasValue b y)
    (h : Representable (format α) (x - y)) : HasValue (a - b) (x - y) := by
  have hround := ha.rounded_sub hb h.abs_le
  exact ⟨hround.normalized, h.value_eq hround⟩

theorem HasValue.mul (ha : HasValue a x) (hb : HasValue b y)
    (h : Representable (format α) (x * y)) : HasValue (a * b) (x * y) := by
  have hmul := Unpacked.rounded_mul ha.normalized hb.normalized
  rw [ha.eq, hb.eq] at hmul
  have hround := rounded_pack hmul h.abs_le
  rw [← mul_eq] at hround
  exact ⟨hround.normalized, h.value_eq hround⟩

theorem HasValue.div (ha : HasValue a x) (hb : HasValue b y) (hy : y ≠ 0)
    (h : Representable (format α) (x / y)) : HasValue (a / b) (x / y) := by
  have hround := ha.rounded_div hb hy h.abs_le
  exact ⟨hround.normalized, h.value_eq hround⟩

theorem HasValue.max (ha : HasValue a x) (hb : HasValue b y) :
    HasValue (Scalar.max a b) (Max.max x y) := by
  simp only [Scalar.max, ha.isNaN, ha.le_iff hb, Bool.false_eq_true, false_or]
  split
  · next h => rwa [max_eq_right h]
  · next h => rwa [max_eq_left (not_le.1 h).le]

/-! ## Whole numbers -/

/-- Whole numbers with no more digits than a mantissa. -/
theorem representable_int {n : Int} (hn : |n| < 2 ^ (format α).mantissaBits) :
    Representable (format α) n := .intCast digits_le hn

theorem HasValue.truncate_int {n lo hi : Int} (ha : HasValue a n) :
    Scalar.truncate lo hi a = clamp lo hi n := by
  rw [truncate_eq, Binary.truncate, Unpacked.toInt_eq ha.normalized ha.eq]

theorem HasValue.truncate (ha : HasValue a x) (hx : 0 ≤ x) (lo hi : Int) :
    Scalar.truncate lo hi a = clamp lo hi ⌊x⌋ := by
  rw [truncate_eq, Binary.truncate, Unpacked.toInt_of_nonneg ha.normalized (by rwa [ha.eq]), ha.eq]

theorem HasValue.ceiling (ha : HasValue a x) (hx : 0 ≤ x) (lo hi : Int) :
    Scalar.ceiling lo hi a = clamp lo hi ⌈x⌉ := by
  rw [ceiling_eq, Unpacked.ceiling_of_nonneg ha.normalized (by rwa [ha.eq]), ha.eq]

end Binary
end RateControl
