-- SUMMARY: The written forms of numerals as relations, and that the readers take exactly these forms.
import Mathlib
import RateControl.Numeral.Decimal

/-! # Lexemes of numerals

The texts that stand for numbers, said without a reader: a sign, a run of digits, a mantissa, an
exponent, and the decimal that they make together. Reading a text that starts with a lexeme, and goes
on with nothing that could belong to it, takes the lexeme and yields its number. -/

namespace RateControl

/-! ## Signs and digits -/

namespace Numeral

/-- A text of digits alone, which may be empty. -/
def AllDigits (ds : List Char) : Prop := ∀ c ∈ ds, c.isDigit = true

/-- A run of digits has at least one digit. -/
def IsRun (ds : List Char) : Prop := ds ≠ [] ∧ AllDigits ds

theorem IsRun.head {ds : List Char} (h : IsRun ds) : ∃ c cs, ds = c :: cs ∧ c.isDigit = true := by
  obtain ⟨c, cs, rfl⟩ := List.exists_cons_of_ne_nil h.1
  exact ⟨c, cs, rfl, h.2 c (by simp)⟩

/-- An optional sign, and whether it makes the number negative. -/
inductive Sign : List Char → Bool → Prop
  | none : Sign [] false
  | plus : Sign ['+'] false
  | minus : Sign ['-'] true

/-- The text does not start with a digit. -/
def NoDigit (s : List Char) : Prop := ∀ c ∈ s.head?, c.isDigit = false

/-- The text does not start with a sign. -/
def NoSign (s : List Char) : Prop := ∀ c ∈ s.head?, c ≠ '+' ∧ c ≠ '-'

theorem NoDigit.cons {c : Char} {s : List Char} (h : c.isDigit = false) : NoDigit (c :: s) := by
  simpa [NoDigit] using h

theorem AllDigits.of_spanDigits (s : List Char) : AllDigits (spanDigits s).1 := by
  intro c hc
  simpa using List.mem_takeWhile_imp hc

theorem NoDigit.of_spanDigits (s : List Char) : NoDigit (spanDigits s).2 := by
  intro c hc
  have h := List.head?_dropWhile_not Char.isDigit s
  rw [show s.dropWhile Char.isDigit = (spanDigits s).2 from rfl] at h
  rw [Option.mem_def] at hc
  simpa [hc] using h

/-- The digits in front of a text that does not go on with a digit are its longest run. -/
theorem spanDigits_run {ds rest : List Char} (hds : AllDigits ds) (hrest : NoDigit rest) :
    spanDigits (ds ++ rest) = (ds, rest) := by
  have htake : rest.takeWhile Char.isDigit = [] := by
    cases rest with
    | nil => rfl
    | cons c s => simp [hrest c (by simp)]
  have hdrop : rest.dropWhile Char.isDigit = rest := by
    cases rest with
    | nil => rfl
    | cons c s => simp [hrest c (by simp)]
  simp [spanDigits, List.takeWhile_append_of_pos hds, List.dropWhile_append_of_pos hds, htake, hdrop]

theorem spanDigits_eq {s ds rest : List Char} (h : spanDigits s = (ds, rest)) :
    s = ds ++ rest ∧ AllDigits ds ∧ NoDigit rest := by
  have happ := spanDigits_append s
  have hds := AllDigits.of_spanDigits s
  have hrest := NoDigit.of_spanDigits s
  rw [h] at happ hds hrest
  exact ⟨happ.symm, hds, hrest⟩

theorem splitSign_eq {s rest : List Char} {negative : Bool} (h : splitSign s = (negative, rest)) :
    ∃ g, Sign g negative ∧ s = g ++ rest := by
  unfold splitSign at h
  split at h <;> cases h
  · exact ⟨_, .minus, rfl⟩
  · exact ⟨_, .plus, rfl⟩
  · exact ⟨_, .none, rfl⟩

theorem splitSign_of_noSign {s : List Char} (h : NoSign s) : splitSign s = (false, s) := by
  unfold splitSign
  split
  · exact absurd rfl (h '-' (by simp)).2
  · exact absurd rfl (h '+' (by simp)).1
  · rfl

theorem splitSign_cases (s : List Char) : (∃ r, s = '+' :: r) ∨ (∃ r, s = '-' :: r) ∨ NoSign s := by
  cases s with
  | nil => exact .inr (.inr (by simp [NoSign]))
  | cons c r =>
    by_cases hplus : c = '+'
    · exact .inl ⟨r, by rw [hplus]⟩
    · by_cases hminus : c = '-'
      · exact .inr (.inl ⟨r, by rw [hminus]⟩)
      · exact .inr (.inr (by simpa [NoSign] using ⟨hplus, hminus⟩))

theorem splitSign_append {g s : List Char} {negative : Bool} (h : Sign g negative) (hs : NoSign s) :
    splitSign (g ++ s) = (negative, s) := by
  cases h with
  | none => exact splitSign_of_noSign hs
  | plus => rfl
  | minus => rfl

theorem not_isDigit_sign {c : Char} (h : c.isDigit = true) : c ≠ '+' ∧ c ≠ '-' := by
  constructor <;> rintro rfl <;> exact absurd h (by decide)

theorem not_isAlpha_digit {c : Char} (h : c.isDigit = true) : c.isAlpha = false := by
  simp only [Char.isDigit, Bool.and_eq_true, decide_eq_true_eq] at h
  simp only [Char.isAlpha, Char.isUpper, Char.isLower, Bool.or_eq_false_iff, Bool.and_eq_false_iff,
    decide_eq_false_iff_not]
  grind

/-! ## Whole numbers -/

/-- A run of digits whose number is at most `hi`. -/
inductive NatNumeral (hi : Nat) : List Char → Nat → Prop
  | intro {ds} : IsRun ds → ofDigits ds ≤ hi → NatNumeral hi ds (ofDigits ds)

/-- An optional sign and a run of digits whose number lies in `lo … hi`. -/
inductive IntNumeral (lo hi : Int) : List Char → Int → Prop
  | intro {g negative ds n} : Sign g negative → IsRun ds →
      n = (if negative then -(ofDigits ds : Int) else ofDigits ds) → lo ≤ n → n ≤ hi →
      IntNumeral lo hi (g ++ ds) n

theorem IntNumeral.bounds {lo hi n : Int} {u : List Char} (h : IntNumeral lo hi u n) : lo ≤ n ∧ n ≤ hi := by
  cases h with
  | intro hg hrun hn hlow hhigh => exact ⟨hlow, hhigh⟩

theorem readNat_eq_some {hi n : Nat} {s rest : List Char} (h : readNat hi s = some (n, rest)) :
    ∃ u, NatNumeral hi u n ∧ s = u ++ rest := by
  unfold readNat at h
  split at h
  · cases h
  · next ds r hne hs =>
    obtain ⟨hs, hds, -⟩ := spanDigits_eq hs
    split at h
    · next hle =>
      cases h
      exact ⟨ds, .intro ⟨by simpa using hne, hds⟩ hle, hs⟩
    · cases h

theorem readNat_append {hi n : Nat} {u rest : List Char} (h : NatNumeral hi u n) (hrest : NoDigit rest) :
    readNat hi (u ++ rest) = some (n, rest) := by
  cases h with
  | intro hrun hle =>
    obtain ⟨c, cs, hcs, -⟩ := hrun.head
    rw [readNat, spanDigits_run hrun.2 hrest]
    split
    · next heq => simp [hcs] at heq
    · next heq =>
      cases heq
      rw [if_pos hle]

theorem readInt_eq_some {lo hi n : Int} {s rest : List Char} (h : readInt lo hi s = some (n, rest)) :
    ∃ u, IntNumeral lo hi u n ∧ s = u ++ rest := by
  rcases hsign : splitSign s with ⟨negative, s'⟩
  obtain ⟨g, hg, rfl⟩ := splitSign_eq hsign
  simp only [readInt, hsign] at h
  split at h
  · cases h
  · next ds r hne hs =>
    obtain ⟨rfl, hds, -⟩ := spanDigits_eq hs
    generalize hm : (if negative then -(ofDigits ds : Int) else ofDigits ds) = m at h
    split at h
    · next hrange =>
      cases h
      exact ⟨g ++ ds, .intro hg ⟨by simpa using hne, hds⟩ hm.symm hrange.1 hrange.2, by simp⟩
    · cases h

/-- Reading a sign and digits yields their number if it is in range. -/
theorem readInt_run (lo hi : Int) {g ds rest : List Char} {negative : Bool} (hg : Sign g negative)
    (hrun : IsRun ds) (hrest : NoDigit rest) : readInt lo hi (g ++ ds ++ rest) =
      let n : Int := if negative then -(ofDigits ds : Int) else ofDigits ds
      if lo ≤ n ∧ n ≤ hi then some (n, rest) else none := by
  obtain ⟨c, cs, hcs, hc⟩ := hrun.head
  have hsign : splitSign (g ++ (ds ++ rest)) = (negative, ds ++ rest) := by
    refine splitSign_append hg fun c' hc' => ?_
    rw [hcs] at hc'
    cases hc'
    exact not_isDigit_sign hc
  simp only [readInt, List.append_assoc, hsign, spanDigits_run hrun.2 hrest]
  split
  · next heq => simp [hcs] at heq
  · next heq =>
    cases heq
    rfl

theorem readInt_append {lo hi n : Int} {u rest : List Char} (h : IntNumeral lo hi u n)
    (hrest : NoDigit rest) : readInt lo hi (u ++ rest) = some (n, rest) := by
  cases h with
  | intro hg hrun hn hlow hhigh =>
    rw [readInt_run lo hi hg hrun hrest, ← hn]
    exact if_pos ⟨hlow, hhigh⟩

theorem readInt32_eq_some {n : Int32} {s rest : List Char} (h : readInt32 s = some (n, rest)) :
    ∃ u, IntNumeral (-2147483648) 2147483647 u n.toInt ∧ s = u ++ rest := by
  simp only [readInt32, Option.map_eq_some_iff] at h
  obtain ⟨⟨m, r⟩, hm, heq⟩ := h
  cases heq
  obtain ⟨u, hu, hs⟩ := readInt_eq_some hm
  have hbounds := hu.bounds
  rw [Int32.toInt_ofInt_of_le (by omega) (by omega)]
  exact ⟨u, hu, hs⟩

theorem readInt32_append {n : Int32} {u rest : List Char}
    (h : IntNumeral (-2147483648) 2147483647 u n.toInt) (hrest : NoDigit rest) :
    readInt32 (u ++ rest) = some (n, rest) := by
  simp only [readInt32, readInt_append h hrest, Option.map_some, Int32.ofInt_toInt]

theorem readInt64_eq_some {n : Int64} {s rest : List Char} (h : readInt64 s = some (n, rest)) :
    ∃ u, IntNumeral (-9223372036854775808) 9223372036854775807 u n.toInt ∧ s = u ++ rest := by
  simp only [readInt64, Option.map_eq_some_iff] at h
  obtain ⟨⟨m, r⟩, hm, heq⟩ := h
  cases heq
  obtain ⟨u, hu, hs⟩ := readInt_eq_some hm
  have hbounds := hu.bounds
  rw [Int64.toInt_ofInt_of_le (by omega) (by omega)]
  exact ⟨u, hu, hs⟩

theorem readInt64_append {n : Int64} {u rest : List Char}
    (h : IntNumeral (-9223372036854775808) 9223372036854775807 u n.toInt) (hrest : NoDigit rest) :
    readInt64 (u ++ rest) = some (n, rest) := by
  simp only [readInt64, readInt_append h hrest, Option.map_some, Int64.ofInt_toInt]

/-- Every number of the range is read as the number of the type that it is. -/
theorem readInt64_append_int {n : Int} {u rest : List Char}
    (h : IntNumeral (-9223372036854775808) 9223372036854775807 u n) (hrest : NoDigit rest) :
    ∃ m : Int64, m.toInt = n ∧ readInt64 (u ++ rest) = some (m, rest) := by
  have hbounds := h.bounds
  have hn : (Int64.ofInt n).toInt = n := Int64.toInt_ofInt_of_le (by omega) (by omega)
  exact ⟨.ofInt n, hn, readInt64_append (by rwa [hn]) hrest⟩

end Numeral

/-! ## Decimals -/

namespace Decimal

open Numeral

/-- Digits with an optional point and more digits, or a point and digits; with all the digits, and how
    many of them stand behind the point. -/
inductive Mantissa : List Char → List Char → Nat → Prop
  | whole {ds} : IsRun ds → Mantissa ds ds 0
  | point {ds fs} : IsRun ds → AllDigits fs → Mantissa (ds ++ '.' :: fs) (ds ++ fs) fs.length
  | fraction {fs} : IsRun fs → Mantissa ('.' :: fs) fs fs.length

/-- An optional exponent: a letter, an optional sign and digits. -/
inductive Exponent : List Char → Int → Prop
  | none : Exponent [] 0
  | some {c g negative ds} : c ∈ ['e', 'E'] → Sign g negative → IsRun ds →
      Exponent (c :: g ++ ds) (if negative then -(ofDigits ds : Int) else ofDigits ds)

/-- The text of a number without a sign, and the decimal that it makes behind a sign. -/
inductive Unsigned (negative : Bool) : List Char → Decimal → Prop
  | intro {m ds places x e} : Mantissa m ds places → Exponent x e →
      Unsigned negative (m ++ x) ⟨negative, ofDigits ds, e - places⟩

/-- The characters that go on with a number. -/
def NoNumber (s : List Char) : Prop :=
  ∀ c ∈ s.head?, c.isDigit = false ∧ c ≠ '.' ∧ c ≠ 'e' ∧ c ≠ 'E'

theorem NoNumber.noDigit {s : List Char} (h : NoNumber s) : NoDigit s := fun c hc => (h c hc).1

/-- The text does not start with a digit or a point. -/
def NoMantissa (s : List Char) : Prop := ∀ c ∈ s.head?, c.isDigit = false ∧ c ≠ '.'

/-- A mantissa starts with a digit or a point. -/
theorem Mantissa.head {m ds : List Char} {places : Nat} (h : Mantissa m ds places) :
    ∃ c cs, m = c :: cs ∧ (c.isDigit = true ∨ c = '.') := by
  cases h with
  | whole hds =>
    obtain ⟨c, cs, rfl, hc⟩ := hds.head
    exact ⟨c, cs, rfl, .inl hc⟩
  | point hds hfs =>
    obtain ⟨c, cs, rfl, hc⟩ := hds.head
    exact ⟨c, _, rfl, .inl hc⟩
  | fraction hfs => exact ⟨'.', _, rfl, .inr rfl⟩

theorem Unsigned.head {negative : Bool} {s : List Char} {d : Decimal} (h : Unsigned negative s d) :
    ∃ c cs, s = c :: cs ∧ (c.isDigit = true ∨ c = '.') := by
  cases h with
  | intro hm hx =>
    obtain ⟨c, cs, rfl, hc⟩ := hm.head
    exact ⟨c, _, rfl, hc⟩

/-! ## Readers take lexemes -/

theorem readMantissa_eq_some {s ds rest : List Char} {places : Nat}
    (h : readMantissa s = some ((ds, places), rest)) :
    ∃ m, Mantissa m ds places ∧ s = m ++ rest := by
  unfold readMantissa at h
  split at h
  · next r hs =>
    obtain ⟨hs, -, -⟩ := spanDigits_eq hs
    split at h
    · cases h
    · next hne hr =>
      obtain ⟨hr, hfs, -⟩ := spanDigits_eq hr
      cases h
      exact ⟨_, .fraction ⟨by simpa using hne, hfs⟩, by simp [hs, hr]⟩
  · cases h
  · next ds' r hne hs =>
    obtain ⟨hs, hds, -⟩ := spanDigits_eq hs
    cases h
    exact ⟨_, .point ⟨by simpa using hne, hds⟩ (AllDigits.of_spanDigits r), by simp [hs]⟩
  · next ds' r hne _ hs =>
    obtain ⟨hs, hds, -⟩ := spanDigits_eq hs
    cases h
    exact ⟨_, .whole ⟨by simpa using hne, hds⟩, hs⟩

theorem readMantissa_append {m ds rest : List Char} {places : Nat} (h : Mantissa m ds places)
    (hrest : NoMantissa rest) : readMantissa (m ++ rest) = some ((ds, places), rest) := by
  have hdigit : NoDigit rest := fun c hc => (hrest c hc).1
  cases h with
  | whole hds =>
    obtain ⟨c, cs, rfl⟩ := List.exists_cons_of_ne_nil hds.1
    rw [readMantissa, spanDigits_run hds.2 hdigit]
    split <;> simp_all [NoMantissa]
  | point hds hfs =>
    obtain ⟨c, cs, rfl⟩ := List.exists_cons_of_ne_nil hds.1
    rw [readMantissa, List.append_assoc,
      spanDigits_run hds.2 (show NoDigit ('.' :: _ ++ rest) from .cons (by decide))]
    simp [spanDigits_run hfs hdigit]
  | fraction hfs =>
    obtain ⟨c, cs, rfl⟩ := List.exists_cons_of_ne_nil hfs.1
    have hpoint : spanDigits ('.' :: (c :: cs ++ rest)) = ([], '.' :: (c :: cs ++ rest)) :=
      @spanDigits_run [] _ (by simp [AllDigits]) (.cons (by decide))
    simp only [readMantissa, List.cons_append] at hpoint ⊢
    simp only [hpoint]
    rw [← List.cons_append, spanDigits_run hfs.2 hdigit]

theorem readExponent_eq_some {s rest : List Char} {e : Int} (h : readExponent s = some (e, rest)) :
    ∃ x, Exponent x e ∧ s = x ++ rest := by
  unfold readExponent at h
  split at h
  · cases h
    exact ⟨[], .none, rfl⟩
  · next c r =>
    split at h
    · next hc =>
      rcases hsign : splitSign r with ⟨negative, r'⟩
      obtain ⟨g, hg, rfl⟩ := splitSign_eq hsign
      simp only [hsign] at h
      split at h
      · cases h
      · next ds r'' hne hr =>
        obtain ⟨hr, hds, -⟩ := spanDigits_eq hr
        cases h
        exact ⟨_, .some (by simpa using hc) hg ⟨by simpa using hne, hds⟩, by simp [hr]⟩
    · cases h
      exact ⟨[], .none, rfl⟩

theorem readExponent_append {x rest : List Char} {e : Int} (h : Exponent x e) (hrest : NoNumber rest) :
    readExponent (x ++ rest) = some (e, rest) := by
  cases h with
  | none =>
    cases rest with
    | nil => rfl
    | cons c s =>
      have hc := hrest c (by simp)
      simp [readExponent, hc.2.2.1, hc.2.2.2]
  | @some c g negative ds hc hg hds =>
    obtain ⟨d, cs, rfl, hd⟩ := hds.head
    have hsign : splitSign (g ++ (d :: cs ++ rest)) = (negative, d :: cs ++ rest) :=
      splitSign_append hg fun c hc => by
        cases hc
        exact not_isDigit_sign hd
    have hc' : c = 'e' ∨ c = 'E' := by simpa using hc
    have hspan := spanDigits_run hds.2 hrest.noDigit
    simp only [readExponent, List.cons_append, List.append_assoc] at hsign hspan ⊢
    simp only [hc', if_true, hsign, hspan]

theorem read_eq_some {s rest : List Char} {d : Decimal} (h : read s = some (d, rest)) :
    ∃ g negative u, Sign g negative ∧ Unsigned negative u d ∧ s = g ++ (u ++ rest) := by
  rcases hsign : splitSign s with ⟨negative, s'⟩
  obtain ⟨g, hg, rfl⟩ := splitSign_eq hsign
  simp only [read, hsign, Option.bind_eq_bind, Option.bind_eq_some_iff] at h
  obtain ⟨⟨⟨ds, places⟩, r⟩, hm, ⟨e, r'⟩, hx, h⟩ := h
  obtain ⟨m, hmant, rfl⟩ := readMantissa_eq_some hm
  obtain ⟨x, hexp, rfl⟩ := readExponent_eq_some hx
  cases h
  exact ⟨g, negative, m ++ x, hg, .intro hmant hexp, by simp⟩

theorem read_eq_none {c : Char} {s : List Char} (hsign : c ≠ '+' ∧ c ≠ '-')
    (hstart : c.isDigit = false ∧ c ≠ '.') : read (c :: s) = none := by
  cases h : read (c :: s) with
  | none => rfl
  | some r =>
    obtain ⟨g, negative, u, hg, hu, heq⟩ := read_eq_some h
    obtain ⟨d, cs, rfl, hd⟩ := hu.head
    cases hg with
    | none =>
      cases heq
      simp [hstart] at hd
    | plus =>
      cases heq
      exact absurd rfl hsign.1
    | minus =>
      cases heq
      exact absurd rfl hsign.2

theorem read_append {g u rest : List Char} {negative : Bool} {d : Decimal} (hg : Sign g negative)
    (hu : Unsigned negative u d) (hrest : NoNumber rest) :
    read (g ++ (u ++ rest)) = some (d, rest) := by
  obtain ⟨c, cs, hcs, hc⟩ := hu.head
  have hsign : splitSign (g ++ (u ++ rest)) = (negative, u ++ rest) := by
    refine splitSign_append hg fun c' hc' => ?_
    rw [hcs] at hc'
    cases hc'
    rcases hc with hc | rfl
    · exact not_isDigit_sign hc
    · decide
  cases hu with
  | @intro m ds places x e hm hx =>
    have hmant : NoMantissa (x ++ rest) := by
      intro c hc
      cases hx with
      | none => exact ⟨(hrest c hc).1, (hrest c hc).2.1⟩
      | some hc' hg' hds =>
        cases hc
        obtain rfl | rfl : _ = 'e' ∨ _ = 'E' := by simpa using hc'
        · decide
        · decide
    rw [List.append_assoc] at hsign ⊢
    simp [read, hsign, readMantissa_append hm hmant, readExponent_append hx hrest]

end Decimal
end RateControl
