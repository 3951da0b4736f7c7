-- SUMMARY: Which values a binary format holds, and that packing a value that it holds loses nothing.
import Mathlib
import RateControl.Binary

/-! # Packing

A format holds the finite values whose mantissa fits and whose exponent is in range; only at the least
exponent may the mantissa lack its leading digit. Packing these is lossless, every bit pattern holds one
of them, and nothing but NaN is packed to NaN. -/

namespace RateControl.Unpacked

open Float.Model (Format UnpackedFloat)
open Float.Model.UnpackedFloat

variable {fmt : Format}

/-! ## Values of a format -/

/-- The greatest exponent of a finite value. -/
def maxExponent (fmt : Format) : Int := fmt.exponentBias - fmt.mantissaBitsWithoutImplicit

/-- The mantissa fits, and uses the leading digit unless the exponent is the least one. -/
structure Canonical (fmt : Format) (m : Nat) (e : Int) : Prop where
  lt : m < 2 ^ fmt.mantissaBits
  least : fmt.minExponent ≤ e
  normal : 2 ^ fmt.mantissaBitsWithoutImplicit ≤ m ∨ e = fmt.minExponent

/-- The format holds the value as it stands. -/
def Holds (fmt : Format) : UnpackedFloat → Prop
  | .finite _ m e _ => Canonical fmt m e ∧ e ≤ maxExponent fmt
  | _ => True

theorem minExponent_eq (fmt : Format) :
    fmt.minExponent = 1 - fmt.exponentBias - fmt.mantissaBitsWithoutImplicit := by
  have h : 1 ≤ 2 ^ (fmt.exponentBits - 1) := Nat.one_le_two_pow
  simp only [Format.minExponent, Format.exponentBias, Format.mantissaBits]
  push_cast [Nat.cast_sub h]
  omega

theorem two_pow_exponentBits (fmt : Format) : 2 ^ fmt.exponentBits = 2 * fmt.exponentBias + 2 := by
  have h : 1 ≤ 2 ^ (fmt.exponentBits - 1) := Nat.one_le_two_pow
  obtain ⟨k, hk⟩ : ∃ k, fmt.exponentBits = k + 1 := ⟨fmt.exponentBits - 1, by have := fmt.he; omega⟩
  simp only [Format.exponentBias, hk, Nat.add_sub_cancel, pow_succ] at h ⊢
  omega

theorem two_pow_mantissaBits (fmt : Format) :
    2 ^ fmt.mantissaBits = 2 * 2 ^ fmt.mantissaBitsWithoutImplicit := by
  rw [Format.mantissaBits, Nat.add_comm, pow_succ, Nat.mul_comm]

/-! ## Components -/

@[simp] theorem unpackSign_packComponents {s : Sign} {e : BitVec fmt.exponentBits}
    {m : BitVec fmt.mantissaBitsWithoutImplicit} :
    unpackSign (packComponents fmt s e m) = s.toBitVec := by
  ext i hi
  obtain rfl : i = 0 := by omega
  simp [unpackSign, packComponents, BitVec.getLsbD_append, BitVec.getElem_append]

@[simp] theorem ofBitVec_toBitVec (s : Sign) : Sign.ofBitVec s.toBitVec = s := by
  cases s <;> rfl

theorem toNat_one_append {n : Nat} (m : BitVec n) : (1#1 ++ m).toNat = 2 ^ n + m.toNat := by
  rw [BitVec.toNat_append, ← Nat.shiftLeft_add_eq_or_of_lt m.isLt]
  simp [Nat.shiftLeft_eq]

theorem toNat_neg_one (fmt : Format) :
    (-BitVec.ofNat fmt.exponentBits 1).toNat = 2 * fmt.exponentBias + 1 := by
  have h := two_pow_exponentBits fmt
  rw [BitVec.neg_one_eq_allOnes, BitVec.toNat_allOnes]
  omega

/-- An exponent code below the greatest one is not the code of infinities and NaN. -/
theorem ofNat_ne_neg_one {n : Nat} (h : n + 1 < 2 ^ fmt.exponentBits) :
    BitVec.ofNat fmt.exponentBits n ≠ -1#_ := by
  intro heq
  have hn := congrArg BitVec.toNat heq
  rw [toNat_neg_one, BitVec.toNat_ofNat, Nat.mod_eq_of_lt (by omega)] at hn
  have := two_pow_exponentBits fmt
  omega

theorem zero_ne_neg_one : BitVec.ofNat fmt.exponentBits 0 ≠ -1#_ :=
  ofNat_ne_neg_one (Nat.one_lt_two_pow fmt.he.ne')

/-! ## Packing -/

theorem unpack_packed_normal {s : Sign} {n m : Nat} (hn : 0 < n) (hlt : n + 1 < 2 ^ fmt.exponentBits)
    (hm : 2 ^ fmt.mantissaBitsWithoutImplicit ≤ m) (hm' : m < 2 ^ fmt.mantissaBits) :
    unpack fmt (packComponents fmt s (.ofNat _ n) (.ofNat _ m)) =
      .finite s m (n - (fmt.exponentBias + fmt.mantissaBitsWithoutImplicit))
        (Nat.lt_of_lt_of_le (Nat.two_pow_pos _) hm) := by
  have hcode : (BitVec.ofNat fmt.exponentBits n).toNat = n := by
    rw [BitVec.toNat_ofNat, Nat.mod_eq_of_lt (by omega)]
  have hzero : BitVec.ofNat fmt.exponentBits n ≠ 0#_ := by
    intro heq
    have h := congrArg BitVec.toNat heq
    rw [hcode] at h
    exact hn.ne' h
  have hmantissa : (1#1 ++ BitVec.ofNat fmt.mantissaBitsWithoutImplicit m).toNat = m := by
    rw [toNat_one_append, BitVec.toNat_ofNat]
    rw [two_pow_mantissaBits] at hm'
    rw [Nat.mod_eq_sub_mod hm, Nat.mod_eq_of_lt (by omega)]
    omega
  simp [unpack, ofNat_ne_neg_one hlt, hzero, hcode, hmantissa]

theorem unpack_packed_subnormal {s : Sign} {m : Nat} (hm : 0 < m)
    (hm' : m < 2 ^ fmt.mantissaBitsWithoutImplicit) :
    unpack fmt (packComponents fmt s 0#_ (.ofNat _ m)) = .finite s m fmt.minExponent hm := by
  have hmantissa : (BitVec.ofNat fmt.mantissaBitsWithoutImplicit m).toNat = m := by
    rw [BitVec.toNat_ofNat, Nat.mod_eq_of_lt hm']
  have hzero : BitVec.ofNat fmt.mantissaBitsWithoutImplicit m ≠ 0#_ := by
    intro heq
    have h := congrArg BitVec.toNat heq
    rw [hmantissa] at h
    exact hm.ne' h
  simp only [unpack, unpackExponent_packComponents, unpackMantissa_packComponents,
    unpackSign_packComponents, ofBitVec_toBitVec, zero_ne_neg_one, hzero, hmantissa, if_false, if_true,
    dite_false, BitVec.toNat_zero]
  congr 1
  rw [minExponent_eq]
  omega

theorem unpack_packedInfinity (s : Sign) : unpack fmt (packedInfinity fmt s) = .infinity s := by
  simp [unpack, packedInfinity]

theorem unpack_packedNaN : unpack fmt (packedNaN fmt) = .notANumber := by
  have h : (BitVec.ofNat fmt.mantissaBitsWithoutImplicit 1 <<< (fmt.mantissaBitsWithoutImplicit - 1)) ≠ 0#_ := by
    intro heq
    have hbit := congrArg (·.getLsbD (fmt.mantissaBitsWithoutImplicit - 1)) heq
    have := fmt.hm
    simp at hbit
    omega
  simp [unpack, packedNaN, h]

theorem unpack_packedZero (s : Sign) : unpack fmt (packedZero fmt s) = .zero s := by
  simp [unpack, packedZero, fmt.he.ne']

/-- Packing loses nothing that the format holds. -/
theorem unpack_pack {u : UnpackedFloat} (h : Holds fmt u) : unpack fmt (pack fmt u) = u := by
  cases u with
  | infinity s => exact unpack_packedInfinity s
  | notANumber => exact unpack_packedNaN
  | zero s => exact unpack_packedZero s
  | finite s m e hm =>
    obtain ⟨⟨hlt, hleast, hnormal⟩, hgreatest⟩ := h
    have hcap := two_pow_exponentBits fmt
    have hfits : ¬ 2 ^ fmt.exponentBits ≤
        (e + fmt.exponentBias + fmt.mantissaBitsWithoutImplicit).toNat + 1 := by
      rw [maxExponent] at hgreatest
      omega
    rw [minExponent_eq] at hleast
    by_cases hm' : 2 ^ fmt.mantissaBitsWithoutImplicit ≤ m
    · have hlog : m.log2 + 1 = fmt.mantissaBits := by
        have hlow := (Nat.le_log2 hm.ne').2 hm'
        have hhigh := (Nat.log2_lt hm.ne').2 hlt
        rw [Format.mantissaBits] at hhigh ⊢
        omega
      rw [pack, if_neg hfits, if_pos hlog, unpack_packed_normal (by omega) (by omega) hm' hlt]
      congr 1
      omega
    · have hlog : m.log2 + 1 ≠ fmt.mantissaBits := by
        have hhigh := (Nat.log2_lt hm.ne').2 (not_le.1 hm')
        rw [Format.mantissaBits]
        omega
      obtain rfl : e = fmt.minExponent := hnormal.resolve_left hm'
      rw [pack, if_neg hfits, if_neg hlog]
      exact unpack_packed_subnormal hm (not_le.1 hm')

/-- Only NaN is packed to NaN. -/
theorem isNaN_unpack_pack (u : UnpackedFloat) : (unpack fmt (pack fmt u)).isNaN = u.isNaN := by
  cases u with
  | infinity s => rw [pack, unpack_packedInfinity]
  | notANumber => rw [pack, unpack_packedNaN]
  | zero s => rw [pack, unpack_packedZero]
  | finite s m e hm =>
    rw [pack]
    split
    · rw [unpack_packedInfinity]; rfl
    · next hfits =>
      have hcode : BitVec.ofNat fmt.exponentBits
          (e + fmt.exponentBias + fmt.mantissaBitsWithoutImplicit).toNat ≠ -1#_ :=
        ofNat_ne_neg_one (by omega)
      split
      · simp only [unpack, unpackExponent_packComponents, hcode, if_false]
        split <;> [split; skip] <;> rfl
      · simp only [unpack, unpackExponent_packComponents, zero_ne_neg_one, if_false, if_true]
        split <;> rfl

/-- Every bit pattern stands for a value that the format holds. With one exponent bit there would be no
    room between zero and infinity. -/
theorem holds_unpack (hfmt : 0 < fmt.exponentBias) (b : BitVec fmt.numBits) :
    Holds fmt (unpack fmt b) := by
  have hcap := two_pow_exponentBits fmt
  have hmin := minExponent_eq fmt
  have hbits := two_pow_mantissaBits fmt
  simp only [unpack]
  split
  · split <;> trivial
  · next htop =>
    split
    · next hbottom =>
      split
      · trivial
      · have hm := (unpackMantissa b).isLt
        have hn : (unpackExponent b).toNat = 0 := by rw [hbottom, BitVec.toNat_zero]
        refine ⟨⟨by omega, by omega, .inr (by omega)⟩, by rw [maxExponent]; omega⟩
    · next hbottom =>
      have hm := (unpackMantissa b).isLt
      have hn := (unpackExponent b).isLt
      have hn' : (unpackExponent b).toNat ≠ 2 * fmt.exponentBias + 1 := by
        rw [← toNat_neg_one]
        exact fun h => htop (BitVec.eq_of_toNat_eq h)
      have hn'' : (unpackExponent b).toNat ≠ 0 := fun h => hbottom (BitVec.eq_of_toNat_eq h)
      have hmantissa := toNat_one_append (unpackMantissa b)
      refine ⟨⟨by omega, by omega, .inl (by omega)⟩, by rw [maxExponent]; omega⟩

end RateControl.Unpacked
