-- SUMMARY: What the writers of numerals write are lexemes of the numbers written.
import RateControl.Proofs.Numeral.Lexeme

/-! # Written numerals

The digits of a number stand for it, and the positional text of a decimal is the lexeme of the same decimal
without its positive power of ten. -/

namespace RateControl

/-! ## Digits -/

namespace Numeral

theorem ofDigits_append (ds fs : List Char) :
    ofDigits (ds ++ fs) = 10 ^ fs.length * ofDigits ds + ofDigits fs := by
  change Nat.ofDigitChars 10 (ds ++ fs) 0 = _
  rw [Nat.ofDigitChars_append, Nat.ofDigitChars_eq_ofDigitChars_zero]
  rfl

@[simp] theorem ofDigits_replicate (n : Nat) : ofDigits (List.replicate n '0') = 0 :=
  Nat.ofDigitChars_replicate_zero

theorem allDigits_append {ds fs : List Char} : AllDigits (ds ++ fs) ↔ AllDigits ds ∧ AllDigits fs := by
  simp only [AllDigits, List.mem_append]
  exact ⟨fun h => ⟨fun c hc => h c (.inl hc), fun c hc => h c (.inr hc)⟩, fun h c hc => hc.elim (h.1 c) (h.2 c)⟩

theorem allDigits_replicate (n : Nat) : AllDigits (List.replicate n '0') := by
  intro c hc
  rw [List.eq_of_mem_replicate hc]
  decide

theorem isRun_natText (n : Nat) : IsRun (natText n) :=
  ⟨Nat.toDigits_ne_nil, fun _ hc => Nat.isDigit_of_mem_toDigits (by decide) le_rfl hc⟩

@[simp] theorem ofDigits_natText (n : Nat) : ofDigits (natText n) = n := Nat.ofDigitChars_ten_toDigits

theorem natNumeral_natText {hi n : Nat} (h : n ≤ hi) : NatNumeral hi (natText n) n := by
  have hnumeral : NatNumeral hi (natText n) _ := .intro (isRun_natText n) (by rwa [ofDigits_natText])
  rwa [ofDigits_natText] at hnumeral

/-- The sign of a written number, and its digits. -/
theorem intText_spec (n : Int) : ∃ g negative, Sign g negative ∧ intText n = g ++ natText n.natAbs ∧
    (if negative then -(n.natAbs : Int) else n.natAbs) = n := by
  cases n with
  | ofNat n => exact ⟨[], false, .none, rfl, rfl⟩
  | negSucc n => exact ⟨['-'], true, .minus, rfl, rfl⟩

theorem intNumeral_intText {lo hi n : Int} (hlow : lo ≤ n) (hhigh : n ≤ hi) :
    IntNumeral lo hi (intText n) n := by
  obtain ⟨g, negative, hg, htext, hn⟩ := intText_spec n
  rw [htext]
  exact .intro hg (isRun_natText _) (by rw [ofDigits_natText, hn]) hlow hhigh

end Numeral

/-! ## Decimals -/

namespace Decimal

open Numeral

/-- Positional text is a mantissa with the digits of the number, and has an exponent only as its places. -/
theorem unsigned_positional {ds : List Char} (hds : IsRun ds) (e : Int) (negative : Bool) :
    Unsigned negative (positional ds e) (unscaled ⟨negative, ofDigits ds, e⟩) := by
  obtain ⟨hne, hall⟩ := hds
  have hmantissa {m ds' : List Char} {places : Nat} (h : Mantissa m ds' places) :
      Unsigned negative m ⟨negative, ofDigits ds', 0 - places⟩ := by
    have hunsigned : Unsigned negative (m ++ []) _ := .intro h .none
    rwa [List.append_nil] at hunsigned
  unfold positional unscaled
  split
  · next hexp =>
    have hrun : IsRun (ds ++ List.replicate e.toNat '0') :=
      ⟨by simp [hne], allDigits_append.2 ⟨hall, allDigits_replicate _⟩⟩
    have h := hmantissa (.whole hrun)
    rw [ofDigits_append, List.length_replicate, ofDigits_replicate] at h
    simpa [Nat.mul_comm] using h
  · next hexp =>
    dsimp only
    obtain ⟨places, rfl⟩ : ∃ places : Nat, e = -places := ⟨(-e).toNat, by omega⟩
    simp only [neg_neg, Int.toNat_natCast]
    split
    · next hlt =>
      have hsplit := List.take_append_drop (ds.length - places) ds
      rw [← hsplit, allDigits_append] at hall
      have hrun : IsRun (ds.take (ds.length - places)) := ⟨by simp [hne]; omega, hall.1⟩
      have h := hmantissa (.point hrun hall.2)
      rwa [hsplit, List.length_drop, Nat.sub_sub_self hlt.le, zero_sub] at h
    · next hge =>
      have hzero : IsRun ['0'] := by simp [IsRun, AllDigits]
      have h := hmantissa (.point hzero (allDigits_append.2 ⟨allDigits_replicate (places - ds.length), hall⟩))
      rw [ofDigits_append, ofDigits_append, ofDigits_replicate, List.length_append, List.length_replicate,
        Nat.sub_add_cancel (not_lt.1 hge), zero_sub, mul_zero, zero_add] at h
      simpa [ofDigits] using h

/-- The text of a decimal behind a sign. -/
theorem unsigned_text {d : Decimal} (hd : d.negative = false) (negative : Bool) :
    Unsigned negative d.text { d with negative }.unscaled := by
  have h := unsigned_positional (isRun_natText d.digits) d.exponent negative
  rw [ofDigits_natText] at h
  rw [text, hd]
  exact h

end Decimal
end RateControl
