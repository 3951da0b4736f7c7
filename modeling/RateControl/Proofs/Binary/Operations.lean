-- SUMMARY: Sums, differences, quotients, comparisons and whole parts of unpacked numbers, as operations on their values.
import RateControl.Proofs.Binary.Rounding

/-! # Operations

On finite numbers every operation is the rational one, rounded. Comparisons are exact, and so are the whole
parts. -/

namespace RateControl.Unpacked

open Float.Model (Format UnpackedFloat totalExponent)
open Float.Model.UnpackedFloat

variable {fmt : Format} {a b : UnpackedFloat}

/-! ## Sums and differences -/

theorem apply_decreaseExponent (s : Sign) {m : Nat} {e t : Int} (ht : t ≤ e) :
    ((s.apply (decreaseExponent m e t).1 : Int) : ℚ) * 2 ^ t = s.apply m * 2 ^ e := by
  have h : (((decreaseExponent m e t).1 : Nat) : ℚ) * 2 ^ t = m * 2 ^ e := by
    simp only [decreaseExponent, Nat.shiftLeft_eq]
    push_cast
    rw [mul_assoc, ← zpow_natCast, ← zpow_add₀ (by norm_num)]
    congr 2
    omega
  cases s <;> simp [Sign.apply, h]

theorem rounded_add (ha : Normalized fmt a) (hb : Normalized fmt b) :
    Rounded fmt (value a + value b) (add fmt a b) := by
  cases a with
  | infinity s => cases ha
  | notANumber => cases ha
  | zero s =>
    cases b with
    | infinity s' => cases hb
    | notANumber => cases hb
    | zero s' =>
      have hzero (s : Sign) : Rounded fmt (value (.zero s)) (.zero s) := Normalized.rounded trivial
      simp only [value, add_zero] at hzero ⊢
      change Rounded fmt 0 (if s == s' then .zero s else .zero .positive)
      split <;> exact hzero _
    | finite s' m e hm => simpa [value, add] using Normalized.rounded hb
  | finite s m e hm =>
    cases b with
    | infinity s' => cases hb
    | notANumber => cases hb
    | zero s' => simpa [value, add] using Normalized.rounded ha
    | finite s' m' e' hm' =>
      have h := rounded_normalize fmt
        (s.apply (decreaseExponent m e (min e e')).1 + s'.apply (decreaseExponent m' e' (min e e')).1)
        (min e e') .positive
      push_cast at h
      rw [add_mul, apply_decreaseExponent s (min_le_left _ _),
        apply_decreaseExponent s' (min_le_right _ _)] at h
      exact h

theorem sub_eq_add (a b : UnpackedFloat) : sub fmt a b = add fmt a b.neg := by
  have happly (s : Sign) (n : Int) : (-s).apply n = -s.apply n := by
    cases s
    · exact (neg_neg n).symm
    · rfl
  cases a <;> cases b <;> simp [sub, add, UnpackedFloat.neg, happly, Int.sub_eq_add_neg]

theorem rounded_sub (ha : Normalized fmt a) (hb : Normalized fmt b) :
    Rounded fmt (value a - value b) (sub fmt a b) := by
  rw [sub_eq_add, sub_eq_add_neg, ← value_neg]
  exact rounded_add ha hb.neg

/-! ## Products -/

theorem apply_mul (s s' : Sign) : (s * s').apply 1 = s.apply 1 * s'.apply 1 := by
  cases s <;> cases s' <;> rfl

theorem apply_eq_mul (s : Sign) (m : Nat) : ((s.apply m : Int) : ℚ) = s.apply 1 * m := by
  cases s <;> simp [Sign.apply]

/-- A product that has no fewer digits than the format. -/
theorem rounded_mul_of_le (fmt : Format) (s s' : Sign) {m m' : Nat} {e e' : Int} (hm : 0 < m) (hm' : 0 < m')
    (hdigits : e + e' ≤ fmt.targetExponent (totalExponent (m * m') (e + e'))) :
    Rounded fmt (value (.finite s m e hm) * value (.finite s' m' e' hm'))
      (mul fmt (.finite s m e hm) (.finite s' m' e' hm')) := by
  have h := rounded_roundWithAccuracy (s * s') (.exact (m * m')) hdigits
  have hvalue : value (.finite s m e hm) * value (.finite s' m' e' hm') =
      (s * s').apply 1 * (((m * m' : Nat) : ℚ) * 2 ^ (e + e')) := by
    rw [value, value, apply_eq_mul s, apply_eq_mul s', apply_mul, zpow_add₀ (by norm_num)]
    push_cast
    ring
  rw [hvalue]
  exact h

/-- The product of canonical numbers has no fewer digits than the format. If one factor has all digits, so has
    the product; otherwise it is far below the range. -/
theorem mul_digits {m m' : Nat} {e e' : Int} (hm : 0 < m) (hm' : 0 < m') (ha : Canonical fmt m e)
    (hb : Canonical fmt m' e') : e + e' ≤ fmt.targetExponent (totalExponent (m * m') (e + e')) := by
  have hmin := minExponent_eq fmt
  have hleast := ha.least
  have hleast' := hb.least
  rw [Format.targetExponent, totalExponent, Format.mantissaBits]
  have hlog (h : 2 ^ fmt.mantissaBitsWithoutImplicit ≤ m * m') :=
    (Nat.le_log2 (Nat.mul_pos hm hm').ne').2 h
  obtain hnormal | hexp := ha.normal
  · have := hlog (hnormal.trans (Nat.le_mul_of_pos_right m hm'))
    omega
  · obtain hnormal | hexp' := hb.normal
    · have := hlog (hnormal.trans (Nat.le_mul_of_pos_left m' hm))
      omega
    · have := fmt.hm
      omega

theorem rounded_mul (ha : Normalized fmt a) (hb : Normalized fmt b) :
    Rounded fmt (value a * value b) (mul fmt a b) := by
  have hzero (s : Sign) : Rounded fmt (value (.zero s)) (.zero s) := Normalized.rounded trivial
  cases a with
  | infinity s => cases ha
  | notANumber => cases ha
  | zero s =>
    cases b with
    | infinity s' => cases hb
    | notANumber => cases hb
    | zero s' => simpa [value, mul] using hzero (s * s')
    | finite s' m' e' hm' => simpa [value, mul] using hzero (s * s')
  | finite s m e hm =>
    cases b with
    | infinity s' => cases hb
    | notANumber => cases hb
    | zero s' => simpa [value, mul] using hzero (s * s')
    | finite s' m' e' hm' =>
      exact rounded_mul_of_le fmt s s' hm hm' (mul_digits hm hm' ha hb)

/-! ## Natural numbers -/

/-- A natural number that was rounded and multiplied by 1. -/
theorem rounded_ofNat_mul {n : Nat} {one : UnpackedFloat} (hfmt : fmt.mantissaBits ≤ fmt.exponentBias)
    (hn : n < 2 ^ fmt.mantissaBits) (hone : Normalized fmt one) (hone' : value one = 1) :
    Rounded fmt n (mul fmt (unpack fmt (pack fmt (ofNat fmt n))) one) := by
  have hbias : 0 < fmt.exponentBias := by
    rw [Format.mantissaBits] at hfmt
    omega
  have hcast : |((n : Int) : ℚ)| < 2 ^ (fmt.mantissaBits : Int) := by
    rw [Int.cast_natCast, abs_of_nonneg (by positivity), zpow_natCast]
    exact_mod_cast hn
  have hround : Rounded fmt (n : Int) (ofNat fmt n) := by
    have h := rounded_normalize fmt n 0 .positive
    rwa [zpow_zero, mul_one] at h
  have hrange : |((n : Int) : ℚ)| ≤ 2 ^ (fmt.exponentBias : Int) :=
    hcast.le.trans ((zpow_le_zpow_iff_right₀ (by norm_num)).2 (by omega))
  rw [hround.unpack_pack hbias hrange]
  have hmul := rounded_mul hround.normalized hone
  rwa [hround.value_eq hbias hcast, hone', mul_one] at hmul

/-- A natural number that is given room for more digits. -/
theorem shifted_digits (fmt : Format) {n : Nat} (hn : 0 < n) :
    -(fmt.mantissaBits : Int) + 0 ≤
      fmt.targetExponent (totalExponent (n <<< fmt.mantissaBits * 1) (-fmt.mantissaBits + 0)) := by
  rw [Nat.mul_one, Nat.shiftLeft_eq, Format.targetExponent, totalExponent, log2_mul_two_pow hn]
  push_cast
  omega

theorem shiftLeft_pos {n k : Nat} (hn : 0 < n) : 0 < n <<< k := by
  rw [Nat.shiftLeft_eq]
  positivity

/-- A natural number that goes through the scientific notation. -/
theorem rounded_ofScientific (fmt : Format) (n : Nat) : Rounded fmt n (ofScientific fmt n 0) := by
  unfold ofScientific
  by_cases hn : n = 0
  · rw [dif_pos hn, hn]
    have h : Rounded fmt (value (.zero .positive)) (.zero .positive) := Normalized.rounded trivial
    simpa [value] using h
  · have hpow : (0 : Int) < 2 ^ fmt.exponentBits := by positivity
    rw [dif_neg hn, if_neg (by omega), if_neg (by omega), if_pos le_rfl]
    have hpos := shiftLeft_pos (k := fmt.mantissaBits) (Nat.pos_of_ne_zero hn)
    have hdigits := shifted_digits fmt (Nat.pos_of_ne_zero hn)
    have h := rounded_mul_of_le fmt .positive .positive hpos Nat.one_pos hdigits
    have hvalue : value (.finite .positive (n <<< fmt.mantissaBits) (-fmt.mantissaBits) hpos) *
        value (.finite .positive 1 0 Nat.one_pos) = n := by
      simp [value, Sign.apply, Nat.shiftLeft_eq]
    rw [hvalue] at h
    exact h

/-! ## Quotients -/

/-- The whole part of a quotient, with whether there is a remainder. -/
theorem covers_quotient (n : Nat) {d : Nat} (hd : 0 < d) :
    Covers (.ofMantissaAndAccuracy (n / d) (accuracyOfFraction (n % d) d)) (n / d) := by
  have hd' : (0 : ℚ) < d := by exact_mod_cast hd
  have hsplit : (n : ℚ) = d * (n / d : Nat) + (n % d : Nat) := by
    exact_mod_cast (Nat.div_add_mod n d).symm
  have hlt : ((n % d : Nat) : ℚ) < d := by exact_mod_cast Nat.mod_lt n hd
  refine ⟨?_, ?_, fun hrest => ?_⟩ <;> rw [mantissa_ofMantissaAndAccuracy]
  · rw [le_div_iff₀ hd']
    have hrest : (0 : ℚ) ≤ (n % d : Nat) := by positivity
    linarith
  · rw [div_lt_iff₀ hd']
    linarith
  · have hmod : n % d ≠ 0 := by
      intro h
      simp [accuracyOfFraction, h, ExtendedMantissa.ofMantissaAndAccuracy] at hrest
    have hpos : (0 : ℚ) < (n % d : Nat) := by exact_mod_cast Nat.pos_of_ne_zero hmod
    rw [lt_div_iff₀ hd']
    linarith

theorem le_log2_div (n : Nat) {d : Nat} (hd : 0 < d) : n.log2 ≤ (n / d).log2 + d.log2 + 1 := by
  by_cases h : n.log2 ≤ d.log2
  · omega
  · obtain ⟨k, hk⟩ : ∃ k, n.log2 = k + d.log2 + 1 := ⟨n.log2 - d.log2 - 1, by omega⟩
    have hn : n ≠ 0 := by
      rintro rfl
      rw [Nat.log2_zero] at hk
      omega
    have hle : 2 ^ k ≤ n / d := by
      rw [Nat.le_div_iff_mul_le hd]
      calc 2 ^ k * d ≤ 2 ^ k * 2 ^ (d.log2 + 1) := Nat.mul_le_mul_left _ Nat.lt_log2_self.le
        _ = 2 ^ n.log2 := by rw [hk, ← pow_add, Nat.add_assoc]
        _ ≤ n := Nat.log2_self_le hn
    have hlog := (Nat.le_log2 (by have := Nat.two_pow_pos k; omega)).2 hle
    omega

/-- The quotient is computed with no fewer digits than the format has. -/
theorem divCore_digits (fmt : Format) {m m' : Nat} (e e' : Int) (hm : 0 < m) (hm' : 0 < m') :
    (divCore fmt m e m' e').2.1 ≤
      fmt.targetExponent (totalExponent (divCore fmt m e m' e').1 (divCore fmt m e m' e').2.1) := by
  simp only [divCore, Nat.shiftLeft_eq]
  set t := min (e - e') (fmt.targetExponent (totalExponent m e - totalExponent m' e')) with ht
  obtain ⟨k, hk⟩ : ∃ k : Nat, e - e' - t = k := ⟨(e - e' - t).toNat, by omega⟩
  rw [hk, Int.toNat_natCast]
  have hlog := le_log2_div (m * 2 ^ k) hm'
  have hshift : (m * 2 ^ k).log2 = m.log2 + k := log2_mul_two_pow hm
  rw [Format.targetExponent, totalExponent, totalExponent] at ht
  rw [Format.targetExponent, totalExponent]
  omega

/-- A dividend with more digits, which the exponent makes up for. -/
theorem shifted_quotient {t : Int} {e e' : Int} (ht : t ≤ e - e') {m m' : Nat} :
    ((m <<< (e - e' - t).toNat : Nat) : ℚ) / m' * 2 ^ t = m / m' * 2 ^ (e - e') := by
  rw [Nat.shiftLeft_eq]
  push_cast
  rw [mul_div_right_comm, mul_assoc, ← zpow_natCast, ← zpow_add₀ (by norm_num)]
  congr 2
  omega

theorem apply_div (s s' : Sign) : (((s / s').apply 1 : Int) : ℚ) = s.apply 1 / s'.apply 1 := by
  have h : (s / s').apply 1 = s.apply 1 * s'.apply 1 := by cases s <;> cases s' <;> rfl
  rw [h]
  cases s <;> cases s' <;> simp [Sign.apply]

theorem rounded_div (ha : Normalized fmt a) (hb : Normalized fmt b) (hb' : value b ≠ 0) :
    Rounded fmt (value a / value b) (div fmt a b) := by
  cases b with
  | infinity s' => cases hb
  | notANumber => cases hb
  | zero s' => exact absurd rfl hb'
  | finite s' m' e' hm' =>
    cases a with
    | infinity s => cases ha
    | notANumber => cases ha
    | zero s =>
      have hzero : Rounded fmt (value (.zero (s / s'))) (.zero (s / s')) := Normalized.rounded trivial
      simpa [value, div] using hzero
    | finite s m e hm =>
      have hdigits := divCore_digits fmt e e' hm hm'
      simp only [divCore] at hdigits
      have h := rounded_roundWithAccuracy (s / s') (covers_quotient _ hm') hdigits
      have hvalue : value (.finite s m e hm) / value (.finite s' m' e' hm') =
          (s / s').apply 1 * (m / m' * 2 ^ (e - e')) := by
        rw [value, value, apply_eq_mul s, apply_eq_mul s', apply_div, zpow_sub₀ (by norm_num)]
        field_simp
      rw [shifted_quotient (min_le_left _ _), ← hvalue] at h
      exact h

/-! ## Comparisons -/

/-- Of two canonical numbers the one with the greater exponent is greater. -/
theorem Canonical.lt_of_lt {m m' : Nat} {e e' : Int} (h : Canonical fmt m e) (h' : Canonical fmt m' e')
    (he : e < e') : (m : ℚ) * 2 ^ e < m' * 2 ^ e' := by
  have hnormal : 2 ^ fmt.mantissaBitsWithoutImplicit ≤ m' :=
    h'.normal.resolve_right (by have := h.least; omega)
  have hcast : (2 : ℚ) ^ fmt.mantissaBitsWithoutImplicit ≤ m' := by exact_mod_cast hnormal
  have hfits : (m : ℚ) < 2 ^ fmt.mantissaBits := by exact_mod_cast h.lt
  calc (m : ℚ) * 2 ^ e < 2 ^ fmt.mantissaBits * 2 ^ e := by gcongr
    _ = 2 ^ fmt.mantissaBitsWithoutImplicit * 2 ^ (e + 1) := by
      rw [Format.mantissaBits, pow_add, zpow_add₀ (by norm_num)]
      ring
    _ ≤ m' * 2 ^ e' := by
      gcongr
      · norm_num
      · omega

theorem compare_magnitude {m m' : Nat} {e e' : Int} (h : Canonical fmt m e)
    (h' : Canonical fmt m' e') :
    (compare e e').then (compare m m') = compare ((m : ℚ) * 2 ^ e) (m' * 2 ^ e') := by
  obtain he | rfl | he := lt_trichotomy e e'
  · rw [compare_lt_iff_lt.2 he, compare_lt_iff_lt.2 (h.lt_of_lt h' he)]
    rfl
  · have hpos : (0 : ℚ) < 2 ^ e := by positivity
    rw [compare_eq_iff_eq.2 rfl, Ordering.eq_then]
    obtain hm | rfl | hm := lt_trichotomy m m'
    · rw [compare_lt_iff_lt.2 hm, compare_lt_iff_lt.2]
      gcongr
    · rw [compare_eq_iff_eq.2 rfl, compare_eq_iff_eq.2 rfl]
    · rw [compare_gt_iff_gt.2 hm, compare_gt_iff_gt.2]
      gcongr
  · rw [compare_gt_iff_gt.2 he, compare_gt_iff_gt.2 (h'.lt_of_lt h he)]
    rfl

theorem value_pos {m : Nat} {e : Int} (hm : 0 < m) : (0 : ℚ) < m * 2 ^ e := by
  have : (0 : ℚ) < m := by exact_mod_cast hm
  positivity

theorem compare_neg (x y : ℚ) : compare (-x) (-y) = (compare x y).swap := by
  obtain h | rfl | h := lt_trichotomy x y
  · rw [compare_lt_iff_lt.2 h, compare_gt_iff_gt.2 (neg_lt_neg h)]
    rfl
  · rw [compare_eq_iff_eq.2 rfl, compare_eq_iff_eq.2 rfl]
    rfl
  · rw [compare_gt_iff_gt.2 h, compare_lt_iff_lt.2 (neg_lt_neg h)]
    rfl

/-- Finite numbers are compared by their values. -/
theorem compare_eq (ha : Normalized fmt a) (hb : Normalized fmt b) :
    UnpackedFloat.compare a b = some (compare (value a) (value b)) := by
  cases a with
  | infinity s => cases ha
  | notANumber => cases ha
  | zero s =>
    cases b with
    | infinity s' => cases hb
    | notANumber => cases hb
    | zero s' => simp [value, UnpackedFloat.compare]
    | finite s' m' e' hm' =>
      have hpos := value_pos (e := e') hm'
      cases s' with
      | negative => simp [value, UnpackedFloat.compare, Sign.apply, compare_gt_iff_gt.2 (neg_neg_of_pos hpos)]
      | positive => simp [value, UnpackedFloat.compare, Sign.apply, compare_lt_iff_lt.2 hpos]
  | finite s m e hm =>
    have hpos := value_pos (e := e) hm
    cases b with
    | infinity s' => cases hb
    | notANumber => cases hb
    | zero s' =>
      cases s with
      | negative => simp [value, UnpackedFloat.compare, Sign.apply, compare_lt_iff_lt.2 (neg_neg_of_pos hpos)]
      | positive => simp [value, UnpackedFloat.compare, Sign.apply, compare_gt_iff_gt.2 hpos]
    | finite s' m' e' hm' =>
      have hpos' := value_pos (e := e') hm'
      have hmagnitude := compare_magnitude ha hb
      cases s with
      | negative =>
        cases s' with
        | negative =>
          simp only [value, UnpackedFloat.compare, Sign.apply, hmagnitude, Int.cast_neg,
            Int.cast_natCast, neg_mul, compare_neg]
        | positive =>
          simp [value, UnpackedFloat.compare, Sign.apply,
            compare_lt_iff_lt.2 ((neg_neg_of_pos hpos).trans hpos')]
      | positive =>
        cases s' with
        | negative =>
          simp [value, UnpackedFloat.compare, Sign.apply,
            compare_gt_iff_gt.2 ((neg_neg_of_pos hpos').trans hpos)]
        | positive =>
          simp only [value, UnpackedFloat.compare, Sign.apply, hmagnitude, Int.cast_natCast]

theorem lt_iff (ha : Normalized fmt a) (hb : Normalized fmt b) :
    UnpackedFloat.lt a b = true ↔ value a < value b := by
  rw [UnpackedFloat.lt, compare_eq ha hb, beq_iff_eq, Option.some.injEq, compare_lt_iff_lt]

theorem le_iff (ha : Normalized fmt a) (hb : Normalized fmt b) :
    UnpackedFloat.le a b = true ↔ value a ≤ value b := by
  rw [UnpackedFloat.le, compare_eq ha hb, Option.any_some, ← compare_le_iff_le]
  cases compare (value a) (value b) <;> simp [Ordering.isLE]

theorem beq_iff (ha : Normalized fmt a) (hb : Normalized fmt b) :
    UnpackedFloat.beq a b = true ↔ value a = value b := by
  rw [UnpackedFloat.beq, compare_eq ha hb, beq_iff_eq, Option.some.injEq, compare_eq_iff_eq]

/-! ## Whole parts -/

/-- Rounding towards zero takes the whole part of the magnitude. -/
theorem roundToInt_eq (s : Sign) (m : Nat) (e : Int) :
    roundToInt s m e = s.apply ⌊(m : ℚ) * 2 ^ e⌋ := by
  have hdown : (decreaseExponent m e 0).2 ≤ 0 := by
    simp only [decreaseExponent]
    omega
  have hvalue : ((decreaseExponent m e 0).1 : ℚ) * 2 ^ (decreaseExponent m e 0).2 = m * 2 ^ e := by
    by_cases hm : 0 < m
    · exact (decreaseExponent_spec hm).2
    · simp [decreaseExponent, show m = 0 by omega]
  obtain ⟨k, hk⟩ : ∃ k : Nat, (decreaseExponent m e 0).2 = -k :=
    ⟨(-(decreaseExponent m e 0).2).toNat, by omega⟩
  have hcov := (Covers.exact (decreaseExponent m e 0).1).shiftRight k
  rw [hk, zpow_neg, zpow_natCast, ← div_eq_mul_inv] at hvalue
  rw [hvalue] at hcov
  have hfloor : ⌊(m : ℚ) * 2 ^ e⌋ = _ := Int.floor_eq_iff.2 ⟨hcov.le, hcov.lt⟩
  rw [hfloor]
  simp [roundToInt, shiftToExponent, hk]

/-- A number has a fraction unless it is whole. -/
theorem hasFraction_eq_false_iff (ha : Normalized fmt a) :
    Binary.hasFraction a = false ↔ ∃ n : Int, value a = n := by
  cases a with
  | infinity s => cases ha
  | notANumber => cases ha
  | zero s => simpa [Binary.hasFraction, value] using ⟨0, by simp⟩
  | finite s m e hm =>
    have hsign : (∃ n : Int, value (.finite s m e hm) = n) ↔ ∃ n : Int, (m : ℚ) * 2 ^ e = n := by
      cases s with
      | positive => simp [value, Sign.apply]
      | negative =>
        constructor <;> rintro ⟨n, hn⟩ <;> refine ⟨-n, ?_⟩ <;>
          push_cast [← hn, value, Sign.apply] <;> ring
    rw [hsign]
    by_cases he : e < 0
    · obtain ⟨k, rfl⟩ : ∃ k : Nat, e = -k := ⟨(-e).toNat, by omega⟩
      have hk : 0 < k := by omega
      have hfrac : Binary.hasFraction (.finite s m (-k) hm) = false ↔ 2 ^ k ∣ m := by
        simp [Binary.hasFraction, hk, Nat.dvd_iff_mod_eq_zero]
      have hpow : (2 : ℚ) ^ k ≠ 0 := by positivity
      rw [hfrac, zpow_neg, zpow_natCast, ← div_eq_mul_inv]
      constructor
      · rintro ⟨n, rfl⟩
        exact ⟨n, by push_cast; field_simp⟩
      · rintro ⟨n, hn⟩
        rw [div_eq_iff hpow] at hn
        have hint : (m : Int) = n * 2 ^ k := by exact_mod_cast hn
        have hdvd : ((2 ^ k : Nat) : Int) ∣ m := ⟨n, by rw [hint]; push_cast; ring⟩
        exact_mod_cast hdvd
    · obtain ⟨k, rfl⟩ : ∃ k : Nat, e = k := ⟨e.toNat, by omega⟩
      refine iff_of_true ?_ ⟨m * 2 ^ k, by push_cast; rw [zpow_natCast]⟩
      simp [Binary.hasFraction]

theorem below_eq_floor (h : Normalized fmt a) (hfrac : Binary.hasFraction a = true) :
    Binary.below a = ⌊value a⌋ := by
  have hwhole : ¬ ∃ n : Int, value a = n := by
    rw [← hasFraction_eq_false_iff h, hfrac]
    decide
  cases a with
  | infinity s => cases h
  | notANumber => cases h
  | zero s => cases hfrac
  | finite s m e hm =>
    cases s with
    | positive => simp [Binary.below, Binary.isNegative, toInt, roundToInt_eq, Sign.apply, value]
    | negative =>
      have hceil : ⌈(m : ℚ) * 2 ^ e⌉ = ⌊(m : ℚ) * 2 ^ e⌋ + 1 := by
        refine le_antisymm (Int.ceil_le_floor_add_one _) (Int.add_one_le_iff.2 (Int.floor_lt.2 ?_))
        refine lt_of_le_of_ne (Int.le_ceil _) fun heq => hwhole ⟨-⌈(m : ℚ) * 2 ^ e⌉, ?_⟩
        push_cast [← heq, value, Sign.apply]
        ring
      have hvalue : value (.finite .negative m e hm) = -((m : ℚ) * 2 ^ e) := by
        push_cast [value, Sign.apply]
        ring
      rw [hvalue, Int.floor_neg, hceil]
      simp only [Binary.below, Binary.isNegative, toInt, roundToInt_eq, Sign.apply, if_true]
      ring

end RateControl.Unpacked
