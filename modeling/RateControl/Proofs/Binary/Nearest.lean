-- SUMMARY: The number that a format has for a positive rational number: it rises with that number, and products and quotients are such numbers.
import RateControl.Proofs.Binary.Representable

/-! # Nearest numbers

A mantissa that is shifted keeps two bits of what it loses: the next digit, and whether there is anything
behind that. They tell on which side of the middle a number lies, so the rounded number depends on the exact
value alone, however mantissa and exponent came about. -/

namespace RateControl

open Float.Model (Format UnpackedFloat totalExponent)
open Float.Model.UnpackedFloat

namespace Unpacked

variable {fmt : Format} {x y : ℚ}

/-! ## Extended mantissas -/

/-- The whole part of a number, the digit behind the point, and whether there are more digits. -/
def extended (x : ℚ) : ExtendedMantissa where
  mantissa := ⌊x⌋₊
  roundBit := ⌊x⌋₊ + 1 / 2 ≤ x
  stickyBit := x ≠ ⌊x⌋₊ ∧ x ≠ ⌊x⌋₊ + 1 / 2

theorem extended_natCast (m : Nat) : extended m = .ofMantissaAndAccuracy m .exact := by
  simp [extended, ExtendedMantissa.ofMantissaAndAccuracy]

theorem extended_shiftRightOne (hx : 0 ≤ x) : (extended x).shiftRightOne = extended (x / 2) := by
  have hhalf : ⌊x / 2⌋₊ = ⌊x⌋₊ / 2 := Nat.floor_div_ofNat x 2
  have hle := Nat.floor_le hx
  have hlt := Nat.lt_floor_add_one x
  have hsplit : (⌊x⌋₊ : ℚ) = 2 * (⌊x⌋₊ / 2 : Nat) + (⌊x⌋₊ % 2 : Nat) := by
    exact_mod_cast (Nat.div_add_mod ⌊x⌋₊ 2).symm
  have hmore : (⌊x⌋₊ + 1 / 2 ≤ x ∨ x ≠ ⌊x⌋₊ ∧ x ≠ ⌊x⌋₊ + 1 / 2) ↔ x ≠ ⌊x⌋₊ := by
    constructor
    · rintro (h | ⟨h, -⟩) heq
      · linarith
      · exact h heq
    · intro h
      by_cases hround : ⌊x⌋₊ + 1 / 2 ≤ x
      · exact .inl hround
      · exact .inr ⟨h, fun heq => hround heq.ge⟩
  simp only [extended, ExtendedMantissa.shiftRightOne, hhalf, ExtendedMantissa.mk.injEq, true_and]
  rw [← Bool.decide_or, decide_eq_decide, hmore]
  obtain hzero | hone : ⌊x⌋₊ % 2 = 0 ∨ ⌊x⌋₊ % 2 = 1 := by omega
  · rw [hzero, Nat.cast_zero] at hsplit
    rw [hzero]
    refine ⟨(decide_eq_false (by linarith)).symm, fun h => ⟨?_, by linarith⟩, fun h heq => h.1 (by linarith)⟩
    exact fun heq => h (by linarith)
  · rw [hone, Nat.cast_one] at hsplit
    rw [hone]
    refine ⟨(decide_eq_true (by linarith)).symm, fun h => ⟨by linarith, ?_⟩, fun h heq => h.2 (by linarith)⟩
    exact fun heq => h (by linarith)

theorem extended_shiftRight (hx : 0 ≤ x) (k : Nat) : extended x >>> k = extended (x / 2 ^ k) := by
  induction k with
  | zero => rw [pow_zero, div_one]; rfl
  | succ k ih =>
    rw [pow_succ, ← div_div, ← extended_shiftRightOne (by positivity), ← ih]
    rfl

/-- The whole part of a quotient, with what remains. -/
theorem extended_quotient (n : Nat) {d : Nat} (hd : 0 < d) :
    extended (n / d) = .ofMantissaAndAccuracy (n / d) (accuracyOfFraction (n % d) d) := by
  have hd' : (0 : ℚ) < d := by exact_mod_cast hd
  have hfloor : ⌊(n : ℚ) / d⌋₊ = n / d := Nat.floor_div_eq_div n d
  have hsplit : (n : ℚ) = d * (n / d : Nat) + (n % d : Nat) := by
    exact_mod_cast (Nat.div_add_mod n d).symm
  have hround : ((n / d : Nat) : ℚ) + 1 / 2 ≤ n / d ↔ d ≤ 2 * (n % d) := by
    rw [le_div_iff₀ hd', ← @Nat.cast_le ℚ]
    push_cast
    constructor <;> intro h <;> linarith
  have hwhole : (n : ℚ) / d = (n / d : Nat) ↔ n % d = 0 := by
    rw [div_eq_iff hd'.ne', ← @Nat.cast_inj ℚ]
    push_cast
    constructor <;> intro h <;> linarith
  have hmiddle : (n : ℚ) / d = (n / d : Nat) + 1 / 2 ↔ 2 * (n % d) = d := by
    rw [div_eq_iff hd'.ne', ← @Nat.cast_inj ℚ]
    push_cast
    constructor <;> intro h <;> linarith
  simp only [extended, hfloor, hround, hwhole, hmiddle, ne_eq, accuracyOfFraction]
  by_cases hexact : n % d = 0
  · simp [hexact, hd.ne', ExtendedMantissa.ofMantissaAndAccuracy]
  · rw [if_neg hexact]
    obtain h | h | h := lt_trichotomy (2 * (n % d)) d
    · simp [compare_lt_iff_lt.2 h, h, h.ne, hexact, ExtendedMantissa.ofMantissaAndAccuracy]
    · simp [h, ExtendedMantissa.ofMantissaAndAccuracy]
    · simp [compare_gt_iff_gt.2 h, h.le, h.ne', hexact, ExtendedMantissa.ofMantissaAndAccuracy]

/-! ## Nearest numbers -/

/-- The number that the format has for the magnitude `y`. -/
def nearest (fmt : Format) (s : Sign) (y : ℚ) : UnpackedFloat :=
  let t := fmt.targetExponent (Int.log 2 y + 1)
  carried fmt s (extended (y / 2 ^ t)).roundedMantissa t

/-- Whole part and exponent give the size of a number. -/
theorem log_mul_zpow {m : Nat} (hm : 0 < m) (hle : m ≤ x) (hlt : x < m + 1) (e : Int) :
    Int.log 2 (x * 2 ^ e) = m.log2 + e := by
  have hlow : (2 : ℚ) ^ m.log2 ≤ x := le_trans (by exact_mod_cast Nat.log2_self_le hm.ne') hle
  have hhigh : x < 2 ^ (m.log2 + 1) :=
    hlt.trans_le (by exact_mod_cast Nat.succ_le_of_lt (Nat.lt_log2_self (n := m)))
  have hpos : 0 < x * 2 ^ e := mul_pos (lt_of_lt_of_le (by positivity) hlow) (by positivity)
  refine le_antisymm (Int.lt_add_one_iff.1 ?_) ?_
  · rw [← Int.lt_zpow_iff_log_lt (by norm_num) hpos, Nat.cast_ofNat, add_right_comm,
      zpow_add₀ (by norm_num)]
    gcongr
    exact_mod_cast hhigh
  · rw [← Int.zpow_le_iff_le_log (by norm_num) hpos, Nat.cast_ofNat, zpow_add₀ (by norm_num), zpow_natCast]
    gcongr

/-- Rounding a number that has no fewer digits than the format. -/
theorem roundWithAccuracy_eq {m : Nat} {e : Int} {a : Accuracy} (s : Sign) (hpos : 0 < x)
    (hx : extended x = .ofMantissaAndAccuracy m a) (he : e ≤ fmt.targetExponent (totalExponent m e)) :
    roundWithAccuracy fmt s m e a = nearest fmt s (x * 2 ^ e) := by
  have hfloor : ⌊x⌋₊ = m := by
    have h := congrArg ExtendedMantissa.mantissa hx
    rwa [mantissa_ofMantissaAndAccuracy] at h
  have hle : (m : ℚ) ≤ x := hfloor ▸ Nat.floor_le hpos.le
  have hlt : x < m + 1 := hfloor ▸ Nat.lt_floor_add_one x
  have hscale : fmt.targetExponent (Int.log 2 (x * 2 ^ e) + 1) = fmt.targetExponent (totalExponent m e) := by
    by_cases hm : m = 0
    · -- Without a whole part the number is below the range, and so is its size.
      have hlog : Int.log 2 (x * 2 ^ e) < e := by
        rw [← Int.lt_zpow_iff_log_lt (by norm_num) (by positivity), Nat.cast_ofNat]
        rw [hm, Nat.cast_zero, zero_add] at hlt
        exact mul_lt_of_lt_one_left (by positivity) hlt
      have hbits := fmt.hm
      rw [hm, totalExponent, Nat.log2_zero] at he ⊢
      rw [Format.targetExponent, Format.mantissaBits] at he ⊢
      rw [Format.targetExponent, Format.mantissaBits]
      omega
    · rw [log_mul_zpow (Nat.pos_of_ne_zero hm) hle hlt, totalExponent, add_right_comm]
  obtain ⟨k, hk⟩ : ∃ k : Nat, e + k = fmt.targetExponent (totalExponent m e) :=
    ⟨(fmt.targetExponent (totalExponent m e) - e).toNat, by omega⟩
  have hfirst := shiftToTargetExponent_of_le (a := a) he
  rw [← hk, show (e + k - e).toNat = k by omega, ← hx, extended_shiftRight hpos.le] at hfirst
  have hquot : x * 2 ^ e / 2 ^ (e + k : Int) = x / 2 ^ k := by
    rw [zpow_add₀ (by norm_num), zpow_natCast]
    field_simp
  simp only [nearest, hscale, ← hk, hquot]
  simp only [roundWithAccuracy, hfirst, carried]

/-- A product that has no fewer digits than the format. -/
theorem mul_eq_nearest (s s' : Sign) {m m' : Nat} {e e' : Int} (hm : 0 < m) (hm' : 0 < m')
    (hdigits : e + e' ≤ fmt.targetExponent (totalExponent (m * m') (e + e'))) :
    mul fmt (.finite s m e hm) (.finite s' m' e' hm') = nearest fmt (s * s') (m * 2 ^ e * (m' * 2 ^ e')) := by
  have hpos : (0 : ℚ) < (m * m' : Nat) := by exact_mod_cast Nat.mul_pos hm hm'
  have h := roundWithAccuracy_eq (s * s') hpos (extended_natCast _) hdigits
  rw [Nat.cast_mul, zpow_add₀ (by norm_num), mul_mul_mul_comm] at h
  exact h

theorem div_eq_nearest (s s' : Sign) {m m' : Nat} {e e' : Int} (hm : 0 < m) (hm' : 0 < m') :
    div fmt (.finite s m e hm) (.finite s' m' e' hm') = nearest fmt (s / s') (m * 2 ^ e / (m' * 2 ^ e')) := by
  have hdigits := divCore_digits fmt e e' hm hm'
  simp only [divCore] at hdigits
  have hpos : (0 : ℚ) < m := by exact_mod_cast hm
  have hpos' : (0 : ℚ) < m' := by exact_mod_cast hm'
  have h := roundWithAccuracy_eq (s / s') (by
    rw [Nat.shiftLeft_eq]
    push_cast
    positivity) (extended_quotient _ hm') hdigits
  have hvalue : (m : ℚ) * 2 ^ e / (m' * 2 ^ e') = m / m' * 2 ^ (e - e') := by
    rw [zpow_sub₀ (by norm_num)]
    field_simp
  rw [shifted_quotient (min_le_left _ _), ← hvalue] at h
  exact h

/-- Nothing is left of what is less than half of the least number. -/
theorem nearest_of_lt (s : Sign) (hpos : 0 < y) (hy : y < 2 ^ (fmt.minExponent - 1)) :
    nearest fmt s y = .zero s := by
  have hlog : Int.log 2 y < fmt.minExponent - 1 := by
    rwa [← Int.lt_zpow_iff_log_lt (by norm_num) hpos, Nat.cast_ofNat]
  have hscale : fmt.targetExponent (Int.log 2 y + 1) = fmt.minExponent := by
    rw [Format.targetExponent]
    omega
  have hhalf : y / 2 ^ fmt.minExponent < 1 / 2 := by
    rw [div_lt_iff₀ (by positivity)]
    rw [zpow_sub₀ (by norm_num), zpow_one] at hy
    linarith
  have hnonneg : 0 ≤ y / 2 ^ fmt.minExponent := by positivity
  have hfloor : ⌊y / 2 ^ fmt.minExponent⌋₊ = 0 := Nat.floor_eq_zero.2 (by linarith)
  have hround : (extended (y / 2 ^ fmt.minExponent)).roundedMantissa = 0 := by
    have hbit : ¬ ((0 : Nat) : ℚ) + 1 / 2 ≤ y / 2 ^ fmt.minExponent := by
      rw [Nat.cast_zero, zero_add]
      exact not_le.2 hhalf
    obtain ⟨more, hmore⟩ : ∃ more, extended (y / 2 ^ fmt.minExponent) = ⟨0, false, more⟩ :=
      ⟨_, by rw [extended, hfloor, decide_eq_false hbit]⟩
    rw [hmore]
    cases more <;> rfl
  have hfits := @shiftToTargetExponent_fits fmt 0 fmt.minExponent (by positivity) le_rfl
  simp only [nearest, hscale, hround, carried, hfits]
  simp [ExtendedMantissa.ofMantissaAndAccuracy]

/-- A number of the format is the nearest to itself. -/
theorem nearest_canonical (s : Sign) {m : Nat} {e : Int} (hm : 0 < m) (h : Canonical fmt m e) :
    nearest fmt s (m * 2 ^ e) = .finite s m e hm := by
  have hscale : fmt.targetExponent (Int.log 2 ((m : ℚ) * 2 ^ e) + 1) = e := by
    rw [log_mul_zpow hm le_rfl (lt_add_one _), Format.targetExponent]
    have hlt := (Nat.log2_lt hm.ne').2 h.lt
    obtain hnormal | rfl := h.normal
    · have hge := (Nat.le_log2 hm.ne').2 hnormal
      have := h.least
      rw [Format.mantissaBits] at hlt ⊢
      omega
    · omega
  have hfits := shiftToTargetExponent_fits h.lt h.least
  have hround : (ExtendedMantissa.ofMantissaAndAccuracy m .exact).roundedMantissa = m := rfl
  simp only [nearest, hscale, mul_div_cancel_right₀ _ (show (2 : ℚ) ^ e ≠ 0 by positivity),
    extended_natCast, hround, carried, hfits]
  exact dif_neg hm.ne'

/-! ## Order -/

theorem covers_extended (hx : 0 ≤ x) : Covers (extended x) x where
  le := Nat.floor_le hx
  lt := Nat.lt_floor_add_one x
  rest := by
    have hle := Nat.floor_le hx
    simp only [extended, decide_eq_true_eq]
    rintro (h | ⟨h, -⟩)
    · linarith
    · exact lt_of_le_of_ne hle h.symm

/-- A number is rounded up from beyond the middle of two whole numbers on, and in the middle if that makes it
    even. -/
theorem roundedMantissa_extended (x : ℚ) : (extended x).roundedMantissa =
    if ⌊x⌋₊ + 1 / 2 < x ∨ x = ⌊x⌋₊ + 1 / 2 ∧ ⌊x⌋₊ % 2 = 1 then ⌊x⌋₊ + 1 else ⌊x⌋₊ := by
  obtain hlt | heq | hgt := lt_trichotomy x (⌊x⌋₊ + 1 / 2)
  · rw [if_neg (not_or.2 ⟨hlt.not_gt, fun h => hlt.ne h.1⟩), extended, decide_eq_false hlt.not_ge]
    by_cases hwhole : x = ⌊x⌋₊
    · rw [decide_eq_false (fun h => h.1 hwhole)]
      rfl
    · rw [decide_eq_true ⟨hwhole, hlt.ne⟩]
      rfl
  · rw [extended, decide_eq_true heq.ge, decide_eq_false (fun h => h.2 heq)]
    change ⌊x⌋₊ + ⌊x⌋₊ % 2 = _
    obtain hzero | hone := Nat.mod_two_eq_zero_or_one ⌊x⌋₊
    · rw [hzero, if_neg (not_or.2 ⟨heq.le.not_gt, by simp⟩), add_zero]
    · rw [hone, if_pos (.inr ⟨heq, rfl⟩)]
  · have hne : x ≠ ⌊x⌋₊ := fun h => by linarith
    rw [if_pos (.inl hgt), extended, decide_eq_true hgt.le, decide_eq_true ⟨hne, hgt.ne'⟩]
    rfl

theorem roundedMantissa_extended_mono (hle : x ≤ y) :
    (extended x).roundedMantissa ≤ (extended y).roundedMantissa := by
  rw [roundedMantissa_extended, roundedMantissa_extended]
  obtain hlt | heq := (Nat.floor_mono hle).lt_or_eq
  · split <;> split <;> omega
  · rw [← heq]
    split
    · next h =>
      rw [if_pos]
      obtain h | ⟨h, hodd⟩ := h
      · exact .inl (h.trans_le hle)
      · exact (h.symm.le.trans hle).lt_or_eq.imp_right fun hmiddle => ⟨hmiddle.symm, hodd⟩
    · split <;> omega

/-- The nearest number is a multiple of the power of two that goes with the size. -/
theorem nearest_spec (hy : 0 < y) :
    Normalized fmt (nearest fmt .positive y) ∧ value (nearest fmt .positive y) =
      (extended (y / 2 ^ fmt.targetExponent (Int.log 2 y + 1))).roundedMantissa *
        2 ^ fmt.targetExponent (Int.log 2 y + 1) := by
  have hlow : (2 : ℚ) ^ Int.log 2 y ≤ y := Int.zpow_log_le_self (by norm_num) hy
  have hhigh : y < 2 ^ (Int.log 2 y + 1) := Int.lt_zpow_succ_log_self (by norm_num) y
  rw [nearest]
  set t := fmt.targetExponent (Int.log 2 y + 1) with ht
  rw [Format.targetExponent] at ht
  have hquantum : (0 : ℚ) < 2 ^ t := by positivity
  obtain ⟨hfloor, hceil⟩ := (covers_extended (x := y / 2 ^ t) (by positivity)).roundedMantissa
  have hbound : ⌈y / 2 ^ t⌉ ≤ 2 ^ fmt.mantissaBits := by
    rw [Int.ceil_le, div_le_iff₀ hquantum]
    push_cast
    rw [← zpow_natCast, ← zpow_add₀ (by norm_num)]
    exact hhigh.le.trans (zpow_le_zpow_right₀ (by norm_num) (by omega))
  have hnormal : 2 ^ fmt.mantissaBitsWithoutImplicit ≤ ⌊y / 2 ^ t⌋ ∨ t = fmt.minExponent := by
    rw [Format.mantissaBits] at ht
    refine or_iff_not_imp_right.2 fun hne => Int.le_floor.2 ?_
    rw [le_div_iff₀ hquantum]
    push_cast
    rw [← zpow_natCast, ← zpow_add₀ (by norm_num)]
    exact (zpow_le_zpow_right₀ (by norm_num) (by omega)).trans hlow
  have hr : (extended (y / 2 ^ t)).roundedMantissa ≤ 2 ^ fmt.mantissaBits := by exact_mod_cast hceil.trans hbound
  have hdigits : 2 ^ fmt.mantissaBitsWithoutImplicit ≤ (extended (y / 2 ^ t)).roundedMantissa ∨
      t = fmt.minExponent := hnormal.imp_left fun h => by exact_mod_cast h.trans hfloor
  obtain ⟨hnormalized, hvalue⟩ := carried_spec .positive hr (by omega) hdigits
  exact ⟨hnormalized, by simpa [Sign.apply] using hvalue⟩

theorem rounded_nearest (hy : 0 < y) : Rounded fmt y (nearest fmt .positive y) := by
  obtain ⟨hnormalized, hvalue⟩ := @nearest_spec fmt y hy
  have hcovers := covers_extended (x := y / 2 ^ fmt.targetExponent (Int.log 2 y + 1)) (by positivity)
  refine ⟨hnormalized, _, ⟨_, hvalue, hcovers.roundedMantissa⟩, fun k hk => ?_⟩
  rw [abs_of_pos hy] at hk
  have hlog : Int.log 2 y < k := (Int.lt_zpow_iff_log_lt (by norm_num) hy).1 hk
  rw [Format.targetExponent, Format.targetExponent]
  omega

/-- Rounding keeps the order. Numbers of one size are rounded to multiples of one quantum, and between numbers
    of different sizes there is a power of two. -/
theorem value_nearest_mono (hx : 0 < x) (hle : x ≤ y) :
    value (nearest fmt .positive x) ≤ value (nearest fmt .positive y) := by
  have hy : 0 < y := hx.trans_le hle
  have hlog : Int.log 2 x ≤ Int.log 2 y := Int.log_mono_right hx hle
  by_cases htarget : fmt.targetExponent (Int.log 2 x + 1) = fmt.targetExponent (Int.log 2 y + 1)
  · rw [(nearest_spec hx).2, (nearest_spec hy).2, htarget]
    gcongr
    exact roundedMantissa_extended_mono (by gcongr)
  · rw [Format.targetExponent, Format.targetExponent, Format.mantissaBits] at htarget
    have hlt : Int.log 2 x < Int.log 2 y := by omega
    have hbetween : x < 2 ^ Int.log 2 y := (Int.lt_zpow_iff_log_lt (by norm_num) hx).2 hlt
    have hleast : fmt.minExponent ≤ Int.log 2 y := by omega
    calc value (nearest fmt .positive x) ≤ |value (nearest fmt .positive x)| := le_abs_self _
      _ ≤ 2 ^ Int.log 2 y := (rounded_nearest hx).abs_value_le hleast (by rw [abs_of_pos hx]; exact hbetween.le)
      _ ≤ value (nearest fmt .positive y) :=
        (rounded_nearest hy).zpow_le_value hleast (Int.zpow_log_le_self (by norm_num) hy)

end Unpacked

/-! ## Products and quotients of positive numbers -/

namespace Binary

open Lawful
open Unpacked (nearest value)

variable {α : Type} [Binary α] [Scalar α] [Lawful α] {a b : α} {x y : ℚ}

theorem HasValue.finite (ha : HasValue a x) (hx : 0 < x) : ∃ (m : Nat) (e : Int) (hm : 0 < m),
    unpack a = .finite .positive m e hm ∧ Unpacked.Canonical (format α) m e ∧ x = m * 2 ^ e := by
  have hn := ha.normalized
  have hv := ha.eq
  cases hu : unpack a with
  | infinity s => rw [hu] at hn; cases hn
  | notANumber => rw [hu] at hn; cases hn
  | zero s => rw [hu] at hv; exact absurd hv hx.ne
  | finite s m e hm =>
    rw [hu] at hn hv
    have hpos := Unpacked.value_pos (e := e) hm
    cases s with
    | positive => exact ⟨m, e, hm, rfl, hn, by simp [← hv, value, Sign.apply]⟩
    | negative =>
      simp only [value, Sign.apply] at hv
      push_cast at hv
      linarith

theorem HasValue.mul_eq (ha : HasValue a x) (hb : HasValue b y) (hx : 0 < x) (hy : 0 < y) :
    a * b = pack (nearest (format α) .positive (x * y)) := by
  obtain ⟨m, e, hm, hua, hca, rfl⟩ := ha.finite hx
  obtain ⟨m', e', hm', hub, hcb, rfl⟩ := hb.finite hy
  rw [Lawful.mul_eq, hua, hub, Unpacked.mul_eq_nearest _ _ hm hm' (Unpacked.mul_digits hm hm' hca hcb)]
  rfl

theorem HasValue.div_eq (ha : HasValue a x) (hb : HasValue b y) (hx : 0 < x) (hy : 0 < y) :
    a / b = pack (nearest (format α) .positive (x / y)) := by
  obtain ⟨m, e, hm, hua, -, rfl⟩ := ha.finite hx
  obtain ⟨m', e', hm', hub, -, rfl⟩ := hb.finite hy
  rw [Lawful.div_eq, hua, hub, Unpacked.div_eq_nearest _ _ hm hm']
  rfl

end Binary
end RateControl
