-- SUMMARY: The shortest text of a single-precision number is a lexeme that reads back as the number.
import RateControl.Numeral.Shortest
import RateControl.Proofs.Numeral.Value
import RateControl.Proofs.Numeral.Writing

/-! # Shortest text reads back

A decimal that the search hits reads back, for that is what it was asked. Without a hit the exact decimal
stands in, which has no other number nearer to it. Zeros taken off at the end change the digits and not the
magnitude. -/

namespace RateControl

open Float.Model (Format UnpackedFloat)
open Float.Model.UnpackedFloat (Sign)
open Binary (unpack)

namespace Decimal

variable {d : Decimal}

theorem stripZeros_spec (n : Nat) (d : Decimal) :
    (d.stripZeros n).negative = d.negative ∧ (d.stripZeros n).magnitude = d.magnitude := by
  induction n generalizing d with
  | zero => exact ⟨rfl, rfl⟩
  | succ n ih =>
    rw [stripZeros]
    split
    · next h =>
      obtain ⟨hnegative, hmagnitude⟩ := ih { d with digits := d.digits / 10, exponent := d.exponent + 1 }
      refine ⟨hnegative, hmagnitude.trans ?_⟩
      have hdigits : (d.digits : ℚ) = 10 * (d.digits / 10 : Nat) := by
        exact_mod_cast (by omega : d.digits = 10 * (d.digits / 10))
      rw [magnitude, magnitude, zpow_add₀ (by norm_num), zpow_one, hdigits]
      ring
    · exact ⟨rfl, rfl⟩

end Decimal

namespace Shortest

variable {x : Float32} {d : Decimal} {m : Nat} {e : Int}

theorem eq_of_beq {u v : UnpackedFloat} (h : (u == v) = true) : u = v := by
  have hsign {s s' : Sign} (h : (s == s') = true) : s = s' := by
    cases s <;> cases s' <;> first | rfl | cases h
  cases u with
  | notANumber => cases v <;> first | rfl | cases h
  | infinity s =>
    cases v with
    | infinity s' => rw [hsign h]
    | _ => cases h
  | zero s =>
    cases v with
    | zero s' => rw [hsign h]
    | _ => cases h
  | finite s m e hm =>
    cases v with
    | finite s' m' e' hm' =>
      obtain ⟨hs, hparts⟩ := Bool.and_eq_true_iff.1 h
      split at hparts
      · next hmantissa =>
        obtain rfl := beq_iff_eq.1 hmantissa
        obtain rfl := beq_iff_eq.1 hparts
        rw [hsign hs]
      · cases hparts
    | _ => cases h

/-- What reads back has the number as its value. -/
theorem value_of_readsBack (h : readsBack x d = true) : (d.unscaled.value : Float32) = x :=
  Binary.Lawful.unpack_injective (eq_of_beq h)

theorem exact_spec (m : Nat) (e : Int) :
    (exact m e).negative = false ∧ (exact m e).magnitude = m * 2 ^ e := by
  unfold exact
  split
  · next he =>
    obtain ⟨k, rfl⟩ := Int.eq_ofNat_of_zero_le he
    simp [Decimal.magnitude]
  · next he =>
    obtain ⟨k, rfl⟩ : ∃ k : Nat, e = -k := ⟨(-e).toNat, by omega⟩
    refine ⟨rfl, ?_⟩
    simp only [Decimal.magnitude, neg_neg, Int.toNat_natCast, Nat.pow_eq, zpow_neg, zpow_natCast]
    push_cast
    rw [show (10 : ℚ) = 2 * 5 by norm_num, mul_pow]
    field_simp

theorem onGrid_eq_some {p : Int} {passes : Decimal → Bool} (h : onGrid m e p passes = some d) :
    passes d = true ∧ d.negative = false := by
  simp only [onGrid] at h
  split at h <;> cases h
  · next hlower hupper =>
    split
    · exact ⟨hlower, rfl⟩
    · exact ⟨hupper, rfl⟩
  · next hlower _ => exact ⟨hlower, rfl⟩
  · next _ hupper => exact ⟨hupper, rfl⟩

theorem search_eq_some {k : Int} {passes : Decimal → Bool} {n count : Nat}
    (h : search m e k passes n count = some d) : passes d = true ∧ d.negative = false := by
  induction count generalizing n with
  | zero => cases h
  | succ count ih =>
    rw [search] at h
    split at h
    · next hgrid =>
      cases h
      exact onGrid_eq_some hgrid
    · exact ih h

/-- The shortest decimal of a number reads back as the number, with the sign of the number. -/
theorem decimal_spec {s : Sign} {hm : 0 < m} {negative : Bool} (hsign : negative = (s matches .negative))
    (hx : unpack x = .finite s m e hm) :
    ∃ d, d = decimal m e (fun d => readsBack x { d with negative }) ∧ d.negative = false ∧
      ({ d with negative }.unscaled.value : Float32) = x := by
  obtain ⟨c, hc, hnegative, hreads⟩ : ∃ c : Decimal,
      c = (search m e (magnitude m e) (fun d => readsBack x { d with negative }) 1 17).getD (exact m e) ∧
      c.negative = false ∧ ({ c with negative }.unscaled.value : Float32) = x := by
    refine ⟨_, rfl, ?_⟩
    cases hhit : search m e (magnitude m e) (fun d => readsBack x { d with negative }) 1 17 with
    | none =>
      obtain ⟨hnegative, hmagnitude⟩ := exact_spec m e
      exact ⟨hnegative, Decimal.value_unscaled_of_magnitude hsign hx hmagnitude⟩
    | some c =>
      obtain ⟨hpasses, hnegative⟩ := search_eq_some hhit
      exact ⟨hnegative, value_of_readsBack hpasses⟩
  obtain ⟨hsame, hmagnitude⟩ := c.stripZeros_spec 17
  refine ⟨c.stripZeros 17, by rw [hc]; rfl, hsame.trans hnegative, ?_⟩
  by_cases hdigits : 0 < c.digits
  · have hvalue := @Decimal.value_unscaled_congr { c with negative } { c.stripZeros 17 with negative } rfl
      hmagnitude.symm hdigits
    rw [← hvalue]
    exact hreads
  · have hstrip : c.stripZeros 17 = c := by
      rw [Decimal.stripZeros, if_neg (fun h => h.2 (Nat.eq_zero_of_not_pos hdigits))]
    rw [hstrip]
    exact hreads

end Shortest
end RateControl
