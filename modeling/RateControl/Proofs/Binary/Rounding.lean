-- SUMMARY: The rational values of unpacked numbers, and rounding to a neighbour that the format holds.
import RateControl.Proofs.Binary.Packing

/-! # Rounding

Every operation rounds its exact result to a multiple of a power of two, the quantum, and goes no further
than to the next multiple on either side. So a bound that is itself a multiple of the quantum survives
rounding, which is all that the proofs here ask of it. -/

namespace RateControl.Unpacked

open Float.Model (Format UnpackedFloat totalExponent)
open Float.Model.UnpackedFloat

variable {fmt : Format}

/-! ## Neighbours -/

/-- `y` is a multiple of `2 ^ t`, and no other multiple lies between it and `x`. -/
def Near (t : Int) (x y : ℚ) : Prop :=
  ∃ r : Int, y = r * 2 ^ t ∧ ⌊x / 2 ^ t⌋ ≤ r ∧ r ≤ ⌈x / 2 ^ t⌉

namespace Near

variable {t j n : Int} {x y : ℚ}

theorem neg (h : Near t x y) : Near t (-x) (-y) := by
  obtain ⟨r, rfl, hlow, hhigh⟩ := h
  refine ⟨-r, by push_cast; ring, ?_, ?_⟩
  · rw [neg_div, Int.floor_neg]
    omega
  · rw [neg_div, Int.ceil_neg]
    omega

/-- A coarser multiple is a multiple of the quantum too. -/
theorem multiple (htj : t ≤ j) : (n : ℚ) * 2 ^ j = ((n * 2 ^ (j - t).toNat : Int) : ℚ) * 2 ^ t := by
  push_cast
  rw [mul_assoc, ← zpow_natCast, ← zpow_add₀ (by norm_num)]
  congr 2
  omega

theorem le_of_le (h : Near t x y) (htj : t ≤ j) (hx : n * 2 ^ j ≤ x) : n * 2 ^ j ≤ y := by
  obtain ⟨r, rfl, hlow, -⟩ := h
  have hpos : (0 : ℚ) < 2 ^ t := by positivity
  rw [multiple htj] at hx ⊢
  have hfloor : n * 2 ^ (j - t).toNat ≤ ⌊x / 2 ^ t⌋ := Int.le_floor.2 ((le_div_iff₀ hpos).2 hx)
  gcongr
  exact_mod_cast hfloor.trans hlow

theorem ge_of_ge (h : Near t x y) (htj : t ≤ j) (hx : x ≤ n * 2 ^ j) : y ≤ n * 2 ^ j := by
  have hneg : ((-n : Int) : ℚ) * 2 ^ j ≤ -y := h.neg.le_of_le htj (by push_cast; linarith)
  push_cast at hneg
  linarith

/-- A multiple of the quantum stays what it is. -/
theorem eq_of_eq (h : Near t x y) (htj : t ≤ j) (hx : x = n * 2 ^ j) : y = x := by
  rw [hx]
  exact le_antisymm (h.ge_of_ge htj hx.le) (h.le_of_le htj hx.ge)

end Near

/-! ## Values -/

/-- The value of a finite number, and 0 for all others. -/
def value : UnpackedFloat → ℚ
  | .finite s m e _ => s.apply m * 2 ^ e
  | _ => 0

/-- A finite number in the form that the format has for it, if its range goes that far. -/
def Normalized (fmt : Format) : UnpackedFloat → Prop
  | .finite _ m e _ => Canonical fmt m e
  | .zero _ => True
  | _ => False

theorem abs_apply (s : Sign) (m : Nat) : |((s.apply m : Int) : ℚ)| = m := by
  cases s <;> simp [Sign.apply]

theorem abs_value_finite (s : Sign) {m : Nat} {e : Int} (hm : 0 < m) :
    |value (.finite s m e hm)| = m * 2 ^ e := by
  rw [value, abs_mul, abs_apply, abs_of_pos (by positivity)]

/-- The exponent of a canonical number is the one that the format gives to its size. -/
theorem Canonical.le_targetExponent {m : Nat} {e k : Int} (h : Canonical fmt m e)
    (hk : (m : ℚ) * 2 ^ e < 2 ^ k) : e ≤ fmt.targetExponent k := by
  rw [Format.targetExponent]
  obtain hnormal | rfl := h.normal
  · have hle : (2 : ℚ) ^ (fmt.mantissaBitsWithoutImplicit + e : Int) ≤ m * 2 ^ e := by
      rw [zpow_add₀ (by norm_num), zpow_natCast]
      have hcast : (2 : ℚ) ^ fmt.mantissaBitsWithoutImplicit ≤ m := by exact_mod_cast hnormal
      gcongr
    have hlt := (zpow_lt_zpow_iff_right₀ (by norm_num : (1 : ℚ) < 2)).1 (hle.trans_lt hk)
    rw [Format.mantissaBits]
    omega
  · exact le_max_right _ _

/-- A number that is not too great for the format is held by it. -/
theorem Normalized.holds {u : UnpackedFloat} (h : Normalized fmt u)
    (hu : |value u| < 2 ^ (fmt.exponentBias + 1 : Int)) (hfmt : 0 < fmt.exponentBias) :
    Holds fmt u := by
  cases u with
  | infinity s => trivial
  | notANumber => trivial
  | zero s => trivial
  | finite s m e hm =>
    refine ⟨h, ?_⟩
    rw [abs_value_finite] at hu
    have hle := Canonical.le_targetExponent h hu
    have hmin := minExponent_eq fmt
    rw [Format.targetExponent, Format.mantissaBits] at hle
    rw [maxExponent]
    omega

/-- What the format makes of the exact value `x`. -/
structure Rounded (fmt : Format) (x : ℚ) (u : UnpackedFloat) : Prop where
  normalized : Normalized fmt u
  /-- The quantum follows from the size of the exact value. -/
  near : ∃ t, Near t x (value u) ∧ ∀ k : Int, |x| < 2 ^ k → t ≤ fmt.targetExponent k

theorem Normalized.rounded {u : UnpackedFloat} (h : Normalized fmt u) : Rounded fmt (value u) u := by
  refine ⟨h, ?_⟩
  cases u with
  | infinity s => cases h
  | notANumber => cases h
  | zero s =>
    exact ⟨fmt.minExponent, ⟨0, by simp [value]⟩, fun _ _ => le_max_right _ _⟩
  | finite s m e hm =>
    refine ⟨e, ⟨s.apply m, rfl, ?_, ?_⟩, fun k hk => ?_⟩
    · rw [value, mul_div_cancel_right₀ _ (by positivity), Int.floor_intCast]
    · rw [value, mul_div_cancel_right₀ _ (by positivity), Int.ceil_intCast]
    · rw [abs_value_finite] at hk
      exact Canonical.le_targetExponent h hk

/-- Rounding does not go beyond a power of two. -/
theorem Rounded.abs_value_le {x : ℚ} {u : UnpackedFloat} {k : Int} (h : Rounded fmt x u)
    (hk : fmt.minExponent ≤ k) (hx : |x| ≤ 2 ^ k) : |value u| ≤ 2 ^ k := by
  obtain ⟨t, hnear, ht⟩ := h.near
  have htk : t ≤ k := by
    have hlt : (2 : ℚ) ^ k < 2 ^ (k + 1) := (zpow_lt_zpow_iff_right₀ (by norm_num)).2 (by omega)
    have := ht (k + 1) (hx.trans_lt hlt)
    rw [Format.targetExponent, Format.mantissaBits] at this
    omega
  obtain ⟨hlow, hhigh⟩ := abs_le.1 hx
  have hle := hnear.ge_of_ge htk (n := 1) (by simpa using hhigh)
  have hge := hnear.le_of_le htk (n := -1) (by simpa using hlow)
  rw [abs_le]
  constructor
  · simpa using hge
  · simpa using hle

/-- Nor does it fall short of one. -/
theorem Rounded.zpow_le_value {x : ℚ} {u : UnpackedFloat} {k : Int} (h : Rounded fmt x u)
    (hk : fmt.minExponent ≤ k) (hx : 2 ^ k ≤ x) : 2 ^ k ≤ value u := by
  obtain ⟨t, hnear, ht⟩ := h.near
  have hpos : 0 < x := lt_of_lt_of_le (by positivity) hx
  have hlow : (2 : ℚ) ^ Int.log 2 x ≤ x := Int.zpow_log_le_self (by norm_num) hpos
  have hhigh : x < 2 ^ (Int.log 2 x + 1) := Int.lt_zpow_succ_log_self (by norm_num) x
  have hlog : k ≤ Int.log 2 x :=
    Int.lt_add_one_iff.1 ((zpow_lt_zpow_iff_right₀ (by norm_num : (1 : ℚ) < 2)).1 (hx.trans_lt hhigh))
  have htarget : t ≤ Int.log 2 x := by
    have := ht _ (by rwa [abs_of_pos hpos])
    rw [Format.targetExponent, Format.mantissaBits] at this
    omega
  have hle := hnear.le_of_le htarget (n := 1) (by simpa using hlow)
  calc (2 : ℚ) ^ k ≤ 2 ^ Int.log 2 x := (zpow_le_zpow_iff_right₀ (by norm_num)).2 hlog
    _ ≤ value u := by simpa using hle

/-- Rounding keeps signs. -/
theorem Rounded.value_nonneg {x : ℚ} {u : UnpackedFloat} (h : Rounded fmt x u) (hx : 0 ≤ x) :
    0 ≤ value u := by
  obtain ⟨t, hnear, -⟩ := h.near
  simpa using hnear.le_of_le le_rfl (n := 0) (by simpa using hx)

/-- Packing what was rounded loses nothing while the exact value is in range. -/
theorem Rounded.unpack_pack {x : ℚ} {u : UnpackedFloat} (h : Rounded fmt x u)
    (hfmt : 0 < fmt.exponentBias) (hx : |x| ≤ 2 ^ (fmt.exponentBias : Int)) :
    unpack fmt (pack fmt u) = u := by
  have hmin := minExponent_eq fmt
  have hle := h.abs_value_le (by omega) hx
  have hlt : (2 : ℚ) ^ (fmt.exponentBias : Int) < 2 ^ (fmt.exponentBias + 1 : Int) :=
    (zpow_lt_zpow_iff_right₀ (by norm_num)).2 (by omega)
  exact Unpacked.unpack_pack (h.normalized.holds (hle.trans_lt hlt) hfmt)

/-- Whole numbers that have no more digits than a mantissa stay what they are. -/
theorem Rounded.value_eq {n : Int} {u : UnpackedFloat} (h : Rounded fmt n u)
    (hfmt : 0 < fmt.exponentBias) (hn : |(n : ℚ)| < 2 ^ (fmt.mantissaBits : Int)) : value u = n := by
  obtain ⟨t, hnear, ht⟩ := h.near
  have hmin := minExponent_eq fmt
  have ht0 : t ≤ 0 := by
    have := ht _ hn
    rw [Format.targetExponent] at this
    omega
  exact hnear.eq_of_eq ht0 (n := n) (by simp)

/-! ## Signs -/

theorem value_neg (u : UnpackedFloat) : value u.neg = -value u := by
  cases u with
  | finite s m e hm => cases s <;> simp [value, UnpackedFloat.neg, Sign.apply]
  | _ => simp [value, UnpackedFloat.neg]

theorem Normalized.neg {u : UnpackedFloat} (h : Normalized fmt u) : Normalized fmt u.neg := by
  cases u <;> exact h

theorem Rounded.neg {x : ℚ} {u : UnpackedFloat} (h : Rounded fmt x u) : Rounded fmt (-x) u.neg := by
  obtain ⟨t, hnear, ht⟩ := h.near
  refine ⟨h.normalized.neg, t, ?_, fun k hk => ht k (by rwa [abs_neg] at hk)⟩
  rw [value_neg]
  exact hnear.neg

/-! ## Shifts -/

/-- The mantissa is the whole part of `x`, and the bits behind it are set only if there is more. -/
structure Covers (em : ExtendedMantissa) (x : ℚ) : Prop where
  le : (em.mantissa : ℚ) ≤ x
  lt : x < em.mantissa + 1
  rest : em.roundBit = true ∨ em.stickyBit = true → (em.mantissa : ℚ) < x

@[simp] theorem mantissa_ofMantissaAndAccuracy (m : Nat) (a : Accuracy) :
    (ExtendedMantissa.ofMantissaAndAccuracy m a).mantissa = m := by
  unfold ExtendedMantissa.ofMantissaAndAccuracy
  split <;> rfl

namespace Covers

variable {em : ExtendedMantissa} {x : ℚ}

theorem exact (m : Nat) : Covers (.ofMantissaAndAccuracy m .exact) m where
  le := le_rfl
  lt := lt_add_one _
  rest := by simp [ExtendedMantissa.ofMantissaAndAccuracy]

theorem shiftRightOne (h : Covers em x) : Covers em.shiftRightOne (x / 2) := by
  have hsplit : (em.mantissa : ℚ) = 2 * (em.mantissa / 2 : Nat) + (em.mantissa % 2 : Nat) := by
    exact_mod_cast (Nat.div_add_mod em.mantissa 2).symm
  have hle := h.le
  have hlt := h.lt
  have hbit : em.mantissa % 2 = 0 ∨ em.mantissa % 2 = 1 := by omega
  constructor <;> simp only [ExtendedMantissa.shiftRightOne]
  · have : (0 : ℚ) ≤ (em.mantissa % 2 : Nat) := by positivity
    linarith
  · have : ((em.mantissa % 2 : Nat) : ℚ) ≤ 1 := by exact_mod_cast (by omega : em.mantissa % 2 ≤ 1)
    linarith
  · intro hrest
    obtain hzero | hone := hbit
    · have hmore := h.rest (by simpa [hzero, or_comm] using hrest)
      rw [hzero] at hsplit
      push_cast at hsplit
      linarith
    · rw [hone] at hsplit
      push_cast at hsplit
      linarith

theorem shiftRight (h : Covers em x) (k : Nat) : Covers (em >>> k) (x / 2 ^ k) := by
  induction k with
  | zero =>
    rw [pow_zero, div_one]
    exact h
  | succ k ih =>
    rw [pow_succ, ← div_div]
    exact ih.shiftRightOne

theorem roundedMantissa (h : Covers em x) :
    ⌊x⌋ ≤ (em.roundedMantissa : Int) ∧ (em.roundedMantissa : Int) ≤ ⌈x⌉ := by
  obtain ⟨m, r, s⟩ := em
  have hfloor : ⌊x⌋ = (m : Int) := Int.floor_eq_iff.2 ⟨h.le, h.lt⟩
  have hceil : (m : Int) ≤ ⌈x⌉ := by exact_mod_cast h.le.trans (Int.le_ceil x)
  have hnext : r = true ∨ s = true → (m : Int) + 1 ≤ ⌈x⌉ := fun hrest =>
    Int.add_one_le_iff.2 (Int.lt_ceil.2 (by simpa using h.rest hrest))
  cases r <;> cases s <;>
    simp [ExtendedMantissa.roundedMantissa, ExtendedMantissa.accuracy, Accuracy.roundToNearestEven,
      hfloor] at hnext ⊢ <;> omega

end Covers

theorem shiftToTargetExponent_of_le {m : Nat} {e : Int} {a : Accuracy}
    (he : e ≤ fmt.targetExponent (totalExponent m e)) :
    shiftToTargetExponent fmt m e a =
      (ExtendedMantissa.ofMantissaAndAccuracy m a >>>
        (fmt.targetExponent (totalExponent m e) - e).toNat,
        fmt.targetExponent (totalExponent m e)) := by
  simp only [shiftToTargetExponent, shiftToExponent, Prod.mk.injEq, true_and]
  omega

theorem log2_add_one_le {m k : Nat} (hm : m < 2 ^ k) (hk : 0 < k) : m.log2 + 1 ≤ k := by
  by_cases h : m = 0
  · rw [h, Nat.log2_zero]
    omega
  · exact (Nat.log2_lt h).2 hm

/-- A mantissa that fits is not shifted any more. -/
theorem shiftToTargetExponent_fits {m : Nat} {t : Int} (hm : m < 2 ^ fmt.mantissaBits)
    (ht : fmt.minExponent ≤ t) :
    shiftToTargetExponent fmt m t .exact = (.ofMantissaAndAccuracy m .exact, t) := by
  have hlog := log2_add_one_le hm (by rw [Format.mantissaBits]; omega)
  have hle : fmt.targetExponent (totalExponent m t) ≤ t := by
    rw [Format.targetExponent, totalExponent]
    omega
  have hzero : (fmt.targetExponent (totalExponent m t) - t).toNat = 0 := by omega
  simp only [shiftToTargetExponent, shiftToExponent, hzero]
  exact Prod.ext rfl (by simp)

/-- A mantissa that rounding has carried into one more digit loses its last digit, which is 0. -/
theorem shiftToTargetExponent_carry {t : Int} (ht : fmt.minExponent ≤ t) :
    shiftToTargetExponent fmt (2 ^ fmt.mantissaBits) t .exact =
      (.ofMantissaAndAccuracy (2 ^ fmt.mantissaBitsWithoutImplicit) .exact, t + 1) := by
  have htarget : fmt.targetExponent (totalExponent (2 ^ fmt.mantissaBits) t) = t + 1 := by
    rw [Format.targetExponent, totalExponent, Nat.log2_two_pow]
    omega
  rw [shiftToTargetExponent_of_le (by omega), htarget, show (t + 1 - t).toNat = 1 by omega]
  refine Prod.ext ?_ rfl
  change ExtendedMantissa.shiftRightOne (.ofMantissaAndAccuracy _ .exact) = _
  simp [ExtendedMantissa.shiftRightOne, ExtendedMantissa.ofMantissaAndAccuracy, two_pow_mantissaBits]

/-! ## Rounding -/

/-- The first shift brings the mantissa down to the digits of the format, or one more if rounding
    carries. -/
theorem rounded_bounds {m k : Nat} {e : Int} {a : Accuracy} {x : ℚ}
    (hx : Covers (.ofMantissaAndAccuracy m a) x)
    (hk : e + k = fmt.targetExponent (totalExponent m e)) :
    ⌈x / 2 ^ k⌉ ≤ 2 ^ fmt.mantissaBits ∧
      (2 ^ fmt.mantissaBitsWithoutImplicit ≤ ⌊x / 2 ^ k⌋ ∨ e + k = fmt.minExponent) := by
  have hle := hx.le
  have hlt := hx.lt
  rw [mantissa_ofMantissaAndAccuracy] at hle hlt
  have hpos : (0 : ℚ) < 2 ^ k := by positivity
  rw [Format.targetExponent, totalExponent] at hk
  constructor
  · have hlog : m + 1 ≤ 2 ^ (fmt.mantissaBits + k) := by
      calc m + 1 ≤ 2 ^ (m.log2 + 1) := Nat.lt_log2_self
        _ ≤ 2 ^ (fmt.mantissaBits + k) := Nat.pow_le_pow_right (by omega) (by omega)
    have hcast : (m : ℚ) + 1 ≤ 2 ^ fmt.mantissaBits * 2 ^ k := by
      rw [← pow_add]
      exact_mod_cast hlog
    rw [Int.ceil_le]
    push_cast
    rw [div_le_iff₀ hpos]
    linarith
  · by_cases hmin : e + k = fmt.minExponent
    · exact .inr hmin
    · left
      have hdigits : fmt.mantissaBitsWithoutImplicit + k = m.log2 := by
        rw [Format.mantissaBits] at hk
        omega
      have hm : m ≠ 0 := by
        rintro rfl
        have := fmt.hm
        rw [Nat.log2_zero] at hdigits
        omega
      have hlog : 2 ^ (fmt.mantissaBitsWithoutImplicit + k) ≤ m := by
        rw [hdigits]
        exact Nat.log2_self_le hm
      have hcast : (2 : ℚ) ^ fmt.mantissaBitsWithoutImplicit * 2 ^ k ≤ m := by
        rw [← pow_add]
        exact_mod_cast hlog
      rw [Int.le_floor]
      push_cast
      rw [le_div_iff₀ hpos]
      linarith

/-- The number that is put together from a rounded mantissa. -/
def carried (fmt : Format) (s : Sign) (r : Nat) (t : Int) : UnpackedFloat :=
  let (em, e) := shiftToTargetExponent fmt r t .exact
  if h : em.mantissa = 0 then .zero s else .finite s em.mantissa e (Nat.pos_of_ne_zero h)

theorem carried_spec (s : Sign) {r : Nat} {t : Int} (hr : r ≤ 2 ^ fmt.mantissaBits)
    (ht : fmt.minExponent ≤ t)
    (hnormal : 2 ^ fmt.mantissaBitsWithoutImplicit ≤ r ∨ t = fmt.minExponent) :
    Normalized fmt (carried fmt s r t) ∧ value (carried fmt s r t) = s.apply r * 2 ^ t := by
  obtain hlt | rfl := hr.lt_or_eq
  · simp only [carried, shiftToTargetExponent_fits hlt ht, ExtendedMantissa.ofMantissaAndAccuracy]
    split
    · next hzero =>
      rw [hzero]
      exact ⟨trivial, by cases s <;> simp [value, Sign.apply]⟩
    · exact ⟨⟨hlt, ht, hnormal⟩, rfl⟩
  · simp only [carried, shiftToTargetExponent_carry ht, ExtendedMantissa.ofMantissaAndAccuracy]
    have hbits := two_pow_mantissaBits fmt
    have hpos : 0 < 2 ^ fmt.mantissaBitsWithoutImplicit := by positivity
    rw [dif_neg hpos.ne']
    refine ⟨⟨by omega, by omega, .inl le_rfl⟩, ?_⟩
    rw [value, zpow_add₀ (by norm_num), hbits]
    cases s <;> push_cast [Sign.apply] <;> ring

/-- Rounding a number that has no fewer digits than the format. A mantissa of 0 only occurs at the least
    exponent. -/
theorem rounded_roundWithAccuracy {m : Nat} {e : Int} {a : Accuracy} {x : ℚ} (s : Sign)
    (hx : Covers (.ofMantissaAndAccuracy m a) x)
    (he : e ≤ fmt.targetExponent (totalExponent m e)) :
    Rounded fmt (s.apply 1 * (x * 2 ^ e)) (roundWithAccuracy fmt s m e a) := by
  obtain ⟨k, hk⟩ : ∃ k : Nat, e + k = fmt.targetExponent (totalExponent m e) :=
    ⟨(fmt.targetExponent (totalExponent m e) - e).toNat, by omega⟩
  have hfirst := shiftToTargetExponent_of_le (a := a) he
  rw [← hk, show (e + k - e).toNat = k by omega] at hfirst
  obtain ⟨hceil, hfloor⟩ := rounded_bounds hx hk
  obtain ⟨hlow, hhigh⟩ := (hx.shiftRight k).roundedMantissa
  set r := (ExtendedMantissa.ofMantissaAndAccuracy m a >>> k).roundedMantissa with hr
  have hround : roundWithAccuracy fmt s m e a = carried fmt s r (e + k) := by
    simp only [roundWithAccuracy, hfirst, carried, hr]
  have hleast : fmt.minExponent ≤ e + k := by
    rw [hk]
    exact le_max_right _ _
  have hbound : r ≤ 2 ^ fmt.mantissaBits := by exact_mod_cast hhigh.trans hceil
  have hnormal : 2 ^ fmt.mantissaBitsWithoutImplicit ≤ r ∨ e + k = fmt.minExponent :=
    hfloor.imp_left fun h => by exact_mod_cast h.trans hlow
  obtain ⟨hnormalized, hvalue⟩ := carried_spec s hbound hleast hnormal
  rw [hround]
  refine ⟨hnormalized, e + k, ?_, fun j hj => ?_⟩
  · have hquot : x * 2 ^ e / 2 ^ (e + k : Int) = x / 2 ^ k := by
      rw [zpow_add₀ (by norm_num), zpow_natCast]
      field_simp
    have hnear : Near (e + k) (x * 2 ^ e) (r * 2 ^ (e + k : Int)) :=
      ⟨r, by push_cast; rfl, by rwa [hquot], by rwa [hquot]⟩
    rw [hvalue]
    cases s with
    | positive => simpa [Sign.apply] using hnear
    | negative => simpa [Sign.apply] using hnear.neg
  · rw [hk, Format.targetExponent, Format.targetExponent, totalExponent]
    rw [Format.targetExponent, totalExponent, Format.mantissaBits] at he
    have hbits := fmt.hm
    by_cases hm : m = 0
    · rw [hm, Nat.log2_zero] at he ⊢
      rw [Format.mantissaBits]
      omega
    have hle : (2 : ℚ) ^ (m.log2 + e : Int) ≤ x * 2 ^ e := by
      have hlog : (2 : ℚ) ^ m.log2 ≤ m := by exact_mod_cast Nat.log2_self_le hm
      have hmx : (m : ℚ) ≤ x := by simpa using hx.le
      rw [zpow_add₀ (by norm_num), zpow_natCast]
      gcongr
      exact hlog.trans hmx
    have hsign : |((s.apply 1 : Int) : ℚ)| = 1 := by simpa using abs_apply s 1
    rw [abs_mul, hsign, one_mul] at hj
    have hlt := (zpow_lt_zpow_iff_right₀ (by norm_num : (1 : ℚ) < 2)).1
      (hle.trans_lt ((le_abs_self _).trans_lt hj))
    omega

theorem log2_mul_two_pow {m k : Nat} (hm : 0 < m) : (m * 2 ^ k).log2 = m.log2 + k := by
  have hpos : 0 < m * 2 ^ k := by positivity
  rw [Nat.log2_eq_iff hpos.ne', pow_add, Nat.add_right_comm, pow_add]
  exact ⟨Nat.mul_le_mul_right _ (Nat.log2_self_le hm.ne'),
    Nat.mul_lt_mul_of_pos_right Nat.lt_log2_self (by positivity)⟩

theorem isNaN_roundWithAccuracy (s : Sign) (m : Nat) (e : Int) (a : Accuracy) :
    (roundWithAccuracy fmt s m e a).isNaN = false := by
  simp only [roundWithAccuracy]
  split <;> rfl

/-- Room for more digits changes neither the value nor its size. -/
theorem decreaseExponent_spec {m : Nat} {e t : Int} (hm : 0 < m) :
    totalExponent (decreaseExponent m e t).1 (decreaseExponent m e t).2 = totalExponent m e ∧
    ((decreaseExponent m e t).1 : ℚ) * 2 ^ (decreaseExponent m e t).2 = m * 2 ^ e := by
  simp only [decreaseExponent, Nat.shiftLeft_eq, totalExponent]
  constructor
  · rw [log2_mul_two_pow hm]
    push_cast
    ring
  · push_cast
    rw [mul_assoc, ← zpow_natCast, ← zpow_add₀ (by norm_num)]
    congr 2
    omega

theorem rounded_round (fmt : Format) (s : Sign) {m : Nat} {e : Int} (hm : 0 < m) :
    Rounded fmt (s.apply m * 2 ^ e) (UnpackedFloat.round fmt s m e) := by
  have hspec := @decreaseExponent_spec m e (fmt.targetExponent (totalExponent m e)) hm
  simp only [UnpackedFloat.round]
  generalize ht : fmt.targetExponent (totalExponent m e) = t at hspec ⊢
  obtain ⟨hsize, hvalue⟩ := hspec
  have hdigits : (decreaseExponent m e t).2 ≤
      fmt.targetExponent (totalExponent (decreaseExponent m e t).1 (decreaseExponent m e t).2) := by
    rw [hsize, ht]
    simp only [decreaseExponent]
    omega
  have h := rounded_roundWithAccuracy s (.exact _) hdigits
  rw [hvalue] at h
  have hsign : ((s.apply m : Int) : ℚ) * 2 ^ e = s.apply 1 * (m * 2 ^ e) := by
    cases s <;> simp [Sign.apply]
  rw [hsign]
  exact h

theorem rounded_normalize (fmt : Format) (n e : Int) (s : Sign) :
    Rounded fmt (n * 2 ^ e) (UnpackedFloat.normalize fmt n e s) := by
  unfold UnpackedFloat.normalize
  split
  · next h =>
    have hneg := Int.compare_eq_lt.1 h
    have hround := @rounded_round fmt .negative (-n).toNat e (by omega)
    rwa [Sign.apply, show -(((-n).toNat : Nat) : Int) = n by omega] at hround
  · next h =>
    obtain rfl := Int.compare_eq_eq.1 h
    have hzero : Rounded fmt (value (.zero s)) (.zero s) := Normalized.rounded trivial
    simpa [value] using hzero
  · next h =>
    have hpos := Int.compare_eq_gt.1 h
    have hround := @rounded_round fmt .positive n.toNat e (by omega)
    rwa [Sign.apply, show ((n.toNat : Nat) : Int) = n by omega] at hround

end RateControl.Unpacked
