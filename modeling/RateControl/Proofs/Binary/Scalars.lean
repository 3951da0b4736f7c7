-- SUMMARY: The rational values of binary numbers, and what the operations of `Scalar` and `Precision` do to values and NaN.
import RateControl.Proofs.Binary.Operations
import RateControl.Shaping

/-! # Values of binary numbers

The laws say that a binary type computes as its format does; all else follows for binary32 and binary64
alike. A number that has a value is neither infinite nor NaN. -/

namespace RateControl

open Float.Model (Format UnpackedFloat)
open Unpacked (Normalized Rounded Near Holds value)

namespace Binary

/-- The operations of the type are those of its format. -/
class Lawful (α : Type) [Binary α] [Scalar α] where
  format : Format
  /-- Whole numbers of as many digits as a mantissa has are in range. -/
  digits_le : format.mantissaBits ≤ format.exponentBias
  bits : α → BitVec format.numBits
  unpack_eq (a : α) : unpack a = UnpackedFloat.unpack format (bits a)
  unpack_pack (u : UnpackedFloat) :
    unpack (pack u : α) = UnpackedFloat.unpack format (UnpackedFloat.pack format u)
  unpack_injective : Function.Injective (unpack : α → UnpackedFloat)
  isNaN_eq (a : α) : Scalar.isNaN a = (unpack a).isNaN
  lt_iff (a b : α) : a < b ↔ UnpackedFloat.lt (unpack a) (unpack b) = true
  le_iff (a b : α) : a ≤ b ↔ UnpackedFloat.le (unpack a) (unpack b) = true
  beq_eq (a b : α) : (a == b) = UnpackedFloat.beq (unpack a) (unpack b)
  add_eq (a b : α) : a + b = pack (UnpackedFloat.add format (unpack a) (unpack b))
  sub_eq (a b : α) : a - b = pack (UnpackedFloat.sub format (unpack a) (unpack b))
  mul_eq (a b : α) : a * b = pack (UnpackedFloat.mul format (unpack a) (unpack b))
  div_eq (a b : α) : a / b = pack (UnpackedFloat.div format (unpack a) (unpack b))
  floor_eq (a : α) : Scalar.floor a =
    if hasFraction (unpack a) then Scalar.ofInt (below (unpack a)) else a
  truncate_eq (lo hi : Int) (a : α) : Scalar.truncate lo hi a = truncate lo hi (unpack a)
  ceiling_eq (lo hi : Int) (a : α) : Scalar.ceiling lo hi a = ceiling lo hi (unpack a)
  rounded_ofInt (n : Int) : |(n : ℚ)| ≤ 2 ^ (format.exponentBias : Int) →
    Rounded format n (unpack (Scalar.ofInt n : α))

/-! ## Single and double precision -/

/-- Natural numbers that fit into 64 bits. -/
theorem ofUInt64_toUInt64 {fmt : Format} {n : Nat} (hn : n < 2 ^ 64) :
    UnpackedFloat.ofUInt64 fmt n.toUInt64 = UnpackedFloat.ofNat fmt n := by
  rw [UnpackedFloat.ofUInt64, Nat.toUInt64, UInt64.toNat_ofNat', Nat.mod_eq_of_lt hn]

/-- The power of ten that a whole number is multiplied by. -/
theorem one32 : Normalized .binary32 (unpack Float32.exactlyRepresentablePowersOfTen[0]) ∧
    value (unpack Float32.exactlyRepresentablePowersOfTen[0]) = 1 := by
  have hunpack : unpack Float32.exactlyRepresentablePowersOfTen[0] =
      .finite .positive (2 ^ 23) (-23) (by decide) := rfl
  rw [hunpack]
  exact ⟨⟨by decide, by decide, .inl (by decide)⟩, by norm_num [value, UnpackedFloat.Sign.apply]⟩

theorem rounded_ofNat32 {n : Nat} (hn : |(n : ℚ)| ≤ 2 ^ (Format.binary32.exponentBias : Int)) :
    Rounded .binary32 n (unpack (Float32.ofNat n)) := by
  have hbias : 0 < Format.binary32.exponentBias := by decide
  change Rounded .binary32 n (unpack (Float32.ofScientific n false 0))
  rw [Float32.ofScientific]
  split
  · next h =>
    have hround := Unpacked.rounded_ofNat_mul (by decide) (h.1.trans_le (by decide)) one32.1 one32.2
    rw [← hround.unpack_pack hbias hn, ← ofUInt64_toUInt64 (by omega)] at hround
    exact hround
  · have hround := Unpacked.rounded_ofScientific .binary32 n
    rw [← hround.unpack_pack hbias hn] at hround
    exact hround

/-- The power of ten that a whole number is multiplied by. -/
theorem one64 : Normalized .binary64 (unpack Float.exactlyRepresentablePowersOfTen[0]) ∧
    value (unpack Float.exactlyRepresentablePowersOfTen[0]) = 1 := by
  have hunpack : unpack Float.exactlyRepresentablePowersOfTen[0] =
      .finite .positive (2 ^ 52) (-52) (by decide) := rfl
  rw [hunpack]
  exact ⟨⟨by decide, by decide, .inl (by decide)⟩, by norm_num [value, UnpackedFloat.Sign.apply]⟩

theorem rounded_ofNat64 {n : Nat} (hn : |(n : ℚ)| ≤ 2 ^ (Format.binary64.exponentBias : Int)) :
    Rounded .binary64 n (unpack (Float.ofNat n)) := by
  have hbias : 0 < Format.binary64.exponentBias := by decide
  change Rounded .binary64 n (unpack (Float.ofScientific n false 0))
  rw [Float.ofScientific]
  split
  · next h =>
    have hround := Unpacked.rounded_ofNat_mul (by decide) (h.1.trans_le (by decide)) one64.1 one64.2
    rw [← hround.unpack_pack hbias hn, ← ofUInt64_toUInt64 (by omega)] at hround
    exact hround
  · have hround := Unpacked.rounded_ofScientific .binary64 n
    rw [← hround.unpack_pack hbias hn] at hround
    exact hround

/-- The opposite of a number that was rounded. -/
theorem rounded_neg {fmt : Format} {x : ℚ} {u : UnpackedFloat} (h : Rounded fmt x u)
    (hfmt : 0 < fmt.exponentBias) (hx : |x| ≤ 2 ^ (fmt.exponentBias : Int)) :
    Rounded fmt (-x) (UnpackedFloat.unpack fmt (UnpackedFloat.pack fmt u.neg)) := by
  rw [h.neg.unpack_pack hfmt (by rwa [abs_neg])]
  exact h.neg

instance : Lawful Float32 where
  format := .binary32
  digits_le := by decide
  bits a := a.toModel.toBits.toBitVec
  unpack_eq _ := rfl
  unpack_pack _ := rfl
  unpack_injective a b h := by
    cases a with | ofModel a => cases b with | ofModel b =>
    cases a with | mk a ha => cases b with | mk b hb =>
    have hbits := (UnpackedFloat.unpack_inj_of_valid ha hb).1 h
    cases a
    cases b
    cases hbits
    rfl
  isNaN_eq _ := rfl
  lt_iff _ _ := decide_eq_true_iff
  le_iff _ _ := decide_eq_true_iff
  beq_eq _ _ := rfl
  add_eq _ _ := rfl
  sub_eq _ _ := rfl
  mul_eq _ _ := rfl
  div_eq _ _ := rfl
  floor_eq _ := rfl
  truncate_eq _ _ _ := rfl
  ceiling_eq _ _ _ := rfl
  rounded_ofInt n hn := by
    cases n with
    | ofNat n => exact rounded_ofNat32 hn
    | negSucc n =>
      have hneg : ((Int.negSucc n : Int) : ℚ) = -((n + 1 : Nat) : ℚ) := by
        rw [Int.negSucc_eq]
        push_cast
        ring
      rw [hneg] at hn ⊢
      rw [abs_neg] at hn
      exact rounded_neg (rounded_ofNat32 hn) (by decide) hn

instance : Lawful Float where
  format := .binary64
  digits_le := by decide
  bits a := a.toModel.toBits.toBitVec
  unpack_eq _ := rfl
  unpack_pack _ := rfl
  unpack_injective a b h := by
    cases a with | ofModel a => cases b with | ofModel b =>
    cases a with | mk a ha => cases b with | mk b hb =>
    have hbits := (UnpackedFloat.unpack_inj_of_valid ha hb).1 h
    cases a
    cases b
    cases hbits
    rfl
  isNaN_eq _ := rfl
  lt_iff _ _ := decide_eq_true_iff
  le_iff _ _ := decide_eq_true_iff
  beq_eq _ _ := rfl
  add_eq _ _ := rfl
  sub_eq _ _ := rfl
  mul_eq _ _ := rfl
  div_eq _ _ := rfl
  floor_eq _ := rfl
  truncate_eq _ _ _ := rfl
  ceiling_eq _ _ _ := rfl
  rounded_ofInt n hn := by
    cases n with
    | ofNat n => exact rounded_ofNat64 hn
    | negSucc n =>
      have hneg : ((Int.negSucc n : Int) : ℚ) = -((n + 1 : Nat) : ℚ) := by
        rw [Int.negSucc_eq]
        push_cast
        ring
      rw [hneg] at hn ⊢
      rw [abs_neg] at hn
      exact rounded_neg (rounded_ofNat64 hn) (by decide) hn

/-! ## Values -/

open Lawful

variable {α : Type} [Binary α] [Scalar α] [Lawful α] {a b lo hi : α} {x y : ℚ}

/-- The number is finite and has the value `x`. -/
structure HasValue (a : α) (x : ℚ) : Prop where
  normalized : Normalized (format α) (unpack a)
  eq : value (unpack a) = x

theorem bias_pos : 0 < (format α).exponentBias := by
  have h := @digits_le α _ _ _
  rw [Format.mantissaBits] at h
  omega

theorem holds (a : α) : Holds (format α) (unpack a) := by
  rw [unpack_eq]
  exact Unpacked.holds_unpack bias_pos _

/-- What is neither infinite nor NaN has a value. -/
theorem unpack_cases (a : α) : (∃ s, unpack a = .infinity s) ∨ unpack a = .notANumber ∨
    ∃ x, HasValue a x := by
  have h := holds a
  cases hu : unpack a with
  | infinity s => exact .inl ⟨s, rfl⟩
  | notANumber => exact .inr (.inl rfl)
  | zero s => exact .inr (.inr ⟨_, by rw [hu]; trivial, rfl⟩)
  | finite s m e hm => exact .inr (.inr ⟨_, by rw [hu] at h ⊢; exact h.1, rfl⟩)

theorem HasValue.isNaN (h : HasValue a x) : Scalar.isNaN a = false := by
  rw [isNaN_eq]
  have hn := h.normalized
  cases hu : unpack a with
  | notANumber => rw [hu] at hn; cases hn
  | _ => rfl

theorem HasValue.lt_iff (ha : HasValue a x) (hb : HasValue b y) : a < b ↔ x < y := by
  rw [Lawful.lt_iff, Unpacked.lt_iff ha.normalized hb.normalized, ha.eq, hb.eq]

theorem HasValue.le_iff (ha : HasValue a x) (hb : HasValue b y) : a ≤ b ↔ x ≤ y := by
  rw [Lawful.le_iff, Unpacked.le_iff ha.normalized hb.normalized, ha.eq, hb.eq]

theorem HasValue.beq_iff (ha : HasValue a x) (hb : HasValue b y) : (a == b) = true ↔ x = y := by
  rw [Lawful.beq_eq, Unpacked.beq_iff ha.normalized hb.normalized, ha.eq, hb.eq]

/-- What was rounded has a value. -/
theorem HasValue.of_rounded (h : Rounded (format α) x (unpack a)) : HasValue a (value (unpack a)) :=
  ⟨h.normalized, rfl⟩

theorem rounded_pack {u : UnpackedFloat} (h : Rounded (format α) x u)
    (hx : |x| ≤ 2 ^ ((format α).exponentBias : Int)) : Rounded (format α) x (unpack (pack u : α)) := by
  rw [unpack_pack, h.unpack_pack bias_pos hx]
  exact h

theorem HasValue.rounded_add (ha : HasValue a x) (hb : HasValue b y)
    (h : |x + y| ≤ 2 ^ ((format α).exponentBias : Int)) :
    Rounded (format α) (x + y) (unpack (a + b)) := by
  have hadd := Unpacked.rounded_add ha.normalized hb.normalized
  rw [ha.eq, hb.eq] at hadd
  rw [add_eq]
  exact rounded_pack hadd h

theorem HasValue.rounded_sub (ha : HasValue a x) (hb : HasValue b y)
    (h : |x - y| ≤ 2 ^ ((format α).exponentBias : Int)) :
    Rounded (format α) (x - y) (unpack (a - b)) := by
  have hsub := Unpacked.rounded_sub ha.normalized hb.normalized
  rw [ha.eq, hb.eq] at hsub
  rw [sub_eq]
  exact rounded_pack hsub h

theorem HasValue.rounded_div (ha : HasValue a x) (hb : HasValue b y) (hy : y ≠ 0)
    (h : |x / y| ≤ 2 ^ ((format α).exponentBias : Int)) :
    Rounded (format α) (x / y) (unpack (a / b)) := by
  have hdiv := Unpacked.rounded_div ha.normalized hb.normalized (by rwa [hb.eq])
  rw [ha.eq, hb.eq] at hdiv
  rw [div_eq]
  exact rounded_pack hdiv h

/-- Whole numbers with no more digits than a mantissa are exact. -/
theorem hasValue_ofInt {n : Int} (hn : |(n : ℚ)| < 2 ^ ((format α).mantissaBits : Int)) :
    HasValue (Scalar.ofInt n : α) n := by
  have hdigits := @digits_le α _ _ _
  have h := @rounded_ofInt α _ _ _ n
    (hn.le.trans ((zpow_le_zpow_iff_right₀ (by norm_num)).2 (by omega)))
  exact ⟨h.normalized, h.value_eq bias_pos hn⟩

theorem HasValue.floor (h : HasValue a x) (hx : |(⌊x⌋ : ℚ)| < 2 ^ ((format α).mantissaBits : Int)) :
    HasValue (Scalar.floor a) ⌊x⌋ := by
  rw [floor_eq]
  split
  · next hfrac =>
    rw [Unpacked.below_eq_floor h.normalized hfrac, h.eq]
    exact hasValue_ofInt hx
  · next hfrac =>
    obtain ⟨n, hn⟩ := (Unpacked.hasFraction_eq_false_iff h.normalized).1 (by simpa using hfrac)
    rw [h.eq] at hn
    rw [hn, Int.floor_intCast, ← hn]
    exact h

/-! ## NaN and infinities -/

@[simp] theorem isNaN_pack (u : UnpackedFloat) : Scalar.isNaN (pack u : α) = u.isNaN := by
  rw [isNaN_eq, unpack_pack, Unpacked.isNaN_unpack_pack]

theorem isNaN_iff : Scalar.isNaN a = true ↔ unpack a = .notANumber := by
  rw [isNaN_eq]
  cases unpack a <;> simp [UnpackedFloat.isNaN]

theorem not_lt_of_isNaN (ha : Scalar.isNaN a = true) : ¬ a < b ∧ ¬ b < a := by
  rw [lt_iff, lt_iff, isNaN_iff.1 ha]
  cases unpack b <;> simp [UnpackedFloat.lt, UnpackedFloat.compare]

theorem isNaN_add (ha : Scalar.isNaN a = true) : Scalar.isNaN (a + b) = true := by
  rw [add_eq, isNaN_pack, isNaN_iff.1 ha]
  cases unpack b <;> rfl

theorem isNaN_floor (ha : Scalar.isNaN a = true) : Scalar.isNaN (Scalar.floor a) = true := by
  rwa [floor_eq, isNaN_iff.1 ha, if_neg (by simp [hasFraction])]

/-- Division by a number other than 0 does not make a NaN of anything else. -/
theorem isNaN_div (hb : HasValue b y) (hy : y ≠ 0) : Scalar.isNaN (a / b) = Scalar.isNaN a := by
  rw [div_eq, isNaN_pack, isNaN_eq]
  have hn := hb.normalized
  have hv := hb.eq
  cases hub : unpack b with
  | infinity s => rw [hub] at hn; cases hn
  | notANumber => rw [hub] at hn; cases hn
  | zero s => rw [hub] at hv; exact absurd hv.symm hy
  | finite s m e hm =>
    cases unpack a with
    | finite s' m' e' hm' =>
      simp only [UnpackedFloat.div]
      exact Unpacked.isNaN_roundWithAccuracy _ _ _ _
    | _ => rfl

theorem HasValue.lt_infinity (hb : HasValue b y) (ha : unpack a = .infinity .positive) :
    b < a ∧ ¬ a < b := by
  have hn := hb.normalized
  rw [Lawful.lt_iff, Lawful.lt_iff, ha]
  cases hub : unpack b with
  | infinity s => rw [hub] at hn; cases hn
  | notANumber => rw [hub] at hn; cases hn
  | _ => exact ⟨rfl, Bool.false_ne_true⟩

theorem HasValue.infinity_lt (hb : HasValue b y) (ha : unpack a = .infinity .negative) : a < b := by
  have hn := hb.normalized
  rw [Lawful.lt_iff, ha]
  cases hub : unpack b with
  | infinity s => rw [hub] at hn; cases hn
  | notANumber => rw [hub] at hn; cases hn
  | _ => rfl

/-- A clipped number lies in the range, unless there is none to be clipped. -/
theorem clipped_cases (a : α) (hlo : HasValue lo x) (hhi : HasValue hi y) (hle : x ≤ y) :
    (Scalar.isNaN a = true ∧ Settings.clipped lo hi a = a) ∨
      Scalar.isNaN a = false ∧ ∃ z, HasValue (Settings.clipped lo hi a) z ∧ x ≤ z ∧ z ≤ y := by
  obtain ⟨s, hinf⟩ | hnan | ⟨z, hz⟩ := unpack_cases a
  · refine .inr ⟨by rw [isNaN_eq, hinf]; rfl, ?_⟩
    cases s with
    | negative => exact ⟨x, by simpa only [Settings.clipped, hlo.infinity_lt hinf, if_true], le_rfl, hle⟩
    | positive =>
      obtain ⟨hgt, -⟩ := hhi.lt_infinity hinf
      obtain ⟨-, hnot⟩ := hlo.lt_infinity hinf
      exact ⟨y, by simpa only [Settings.clipped, hnot, gt_iff_lt, hgt, if_true, if_false], hle, le_rfl⟩
  · have hisNaN := isNaN_iff.2 hnan
    refine .inl ⟨hisNaN, ?_⟩
    rw [Settings.clipped, if_neg (not_lt_of_isNaN hisNaN).1, if_neg (not_lt_of_isNaN hisNaN).2]
  · refine .inr ⟨hz.isNaN, ?_⟩
    unfold Settings.clipped
    split
    · exact ⟨x, hlo, le_rfl, hle⟩
    · next hlow =>
      split
      · exact ⟨y, hhi, hle, le_rfl⟩
      · next hhigh =>
        rw [hz.lt_iff hlo] at hlow
        rw [gt_iff_lt, hhi.lt_iff hz] at hhigh
        exact ⟨z, hz, not_lt.1 hlow, not_lt.1 hhigh⟩

/-! ## Changes of precision -/

theorem isNaN_round (fmt : Format) (u : UnpackedFloat) : (round fmt u).isNaN = u.isNaN := by
  cases u with
  | finite s m e hm =>
    simp only [round, UnpackedFloat.round]
    exact Unpacked.isNaN_roundWithAccuracy _ _ _ _
  | _ => rfl

theorem isNaN_narrow (a : Float) : Scalar.isNaN (narrow a : Float32) = Scalar.isNaN a := by
  have h := @isNaN_pack Float32 _ _ _ (round .binary32 (unpack a))
  rw [isNaN_round, ← isNaN_eq] at h
  exact h

theorem isNaN_widen (a : Float32) : Scalar.isNaN (widen a : Float) = Scalar.isNaN a := by
  have h := @isNaN_pack Float _ _ _ (round .binary64 (unpack a))
  rw [isNaN_round, ← isNaN_eq] at h
  exact h

end Binary
end RateControl
