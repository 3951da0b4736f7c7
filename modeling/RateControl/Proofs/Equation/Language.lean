-- SUMMARY: Reading a rate equation takes exactly the sentences of the grammar, and the value of the equation is the meaning of the sentence.
import RateControl.Proofs.Equation.Chain

/-! # Language of rate equations

The parser is right for the grammar at every level: names, primaries, factors, terms, sums and sequences.
Each level takes the expressions inside parentheses from a parser that is right for shorter texts, so the
levels hold together by induction on the depth of the nesting. -/

namespace RateControl

open Grammar Numeral

variable {σ δ : Type} [Scalar δ] [Precision σ δ]

namespace Expr

/-- The values of an expression. -/
def meaning (a : Expr) : Meaning σ δ := fun table r => (a.eval table r).value

@[simp] theorem meaning_binaryCall (f : BinaryFunction) (a b : Expr) :
    (binaryCall f a b).meaning = Meaning.map₂ f.apply (a.meaning : Meaning σ δ) b.meaning := rfl

/-! ## Names -/

/-- A letter, and letters, digits and underscores behind it. -/
def IsName (name : String) : Prop :=
  ∃ c cs, name.toList = c :: cs ∧ c.isAlpha = true ∧ ∀ d ∈ cs, isNameChar d = true

/-- The text does not go on with a character of a name. -/
def NoName (s : List Char) : Prop := ∀ c ∈ s.head?, isNameChar c = false

theorem identifier_eq_some {s rest : List Char} {name : String} (h : identifier s = some (name, rest)) :
    s = name.toList ++ rest := by
  unfold identifier at h
  split at h
  · cases h
  · split at h
    · cases h
      simp
    · cases h

theorem identifier_append {name : String} {rest : List Char} (h : IsName name) (hrest : NoName rest) :
    identifier (name.toList ++ rest) = some (name, rest) := by
  obtain ⟨c, cs, hname, hc, hcs⟩ := h
  have htake : rest.takeWhile isNameChar = [] := by
    cases rest with
    | nil => rfl
    | cons d s => simp [hrest d (by simp)]
  have hdrop : rest.dropWhile isNameChar = rest := by
    cases rest with
    | nil => rfl
    | cons d s => simp [hrest d (by simp)]
  have hlist : String.ofList (c :: cs) = name := by rw [← hname, String.ofList_toList]
  simp [identifier, hname, hc, List.takeWhile_append_of_pos hcs, List.dropWhile_append_of_pos hcs,
    htake, hdrop, hlist]

theorem identifier_eq_none {c : Char} {s : List Char} (h : c.isAlpha = false) :
    identifier (c :: s) = none := by
  simp [identifier, h]

theorem isName_symbol (c : Symbol) : IsName c.name := by
  cases c <;> exact ⟨_, _, rfl, by decide, List.all_eq_true.1 rfl⟩

theorem isName_unaryFunction {name : String} {f : Record σ → δ → δ} (h : (name, f) ∈ unaryFunctions) :
    IsName name := by
  simp only [unaryFunctions, List.mem_cons, Prod.mk.injEq, List.not_mem_nil, or_false] at h
  obtain ⟨rfl, -⟩ | ⟨rfl, -⟩ | ⟨rfl, -⟩ | ⟨rfl, -⟩ | ⟨rfl, -⟩ | ⟨rfl, -⟩ := h <;>
    exact ⟨_, _, rfl, by decide, List.all_eq_true.1 rfl⟩

theorem isName_binaryFunction {name : String} {f : δ → δ → δ} (h : (name, f) ∈ binaryFunctions) :
    IsName name := by
  simp only [binaryFunctions, List.mem_cons, Prod.mk.injEq, List.not_mem_nil, or_false] at h
  obtain ⟨rfl, -⟩ | ⟨rfl, -⟩ | ⟨rfl, -⟩ := h <;> exact ⟨_, _, rfl, by decide, List.all_eq_true.1 rfl⟩

theorem symbol_ofName?_name (c : Symbol) : Symbol.ofName? c.name = some c := by
  cases c <;> rfl

theorem symbol_name_of_ofName? {name : String} {c : Symbol} (h : Symbol.ofName? name = some c) :
    c.name = name := by
  simpa using List.find?_some h

/-! ## Calls -/

/-- A function of one argument has the name and the values that the grammar gives it. -/
theorem unaryFunctions_iff {name : String} {f : Record σ → δ → δ} :
    (name, f) ∈ unaryFunctions ↔ ∃ g, UnaryFunction.ofName? name = some g ∧
      f = fun r x => (g.apply r x).value := by
  constructor
  · intro h
    simp only [unaryFunctions, List.mem_cons, Prod.mk.injEq, List.not_mem_nil, or_false] at h
    obtain ⟨rfl, rfl⟩ | ⟨rfl, rfl⟩ | ⟨rfl, rfl⟩ | ⟨rfl, rfl⟩ | ⟨rfl, rfl⟩ | ⟨rfl, rfl⟩ := h <;>
      exact ⟨_, rfl, rfl⟩
  · rintro ⟨g, hg, rfl⟩
    obtain rfl : g.name = name := by simpa using List.find?_some hg
    cases g <;> simp [unaryFunctions, UnaryFunction.name, UnaryFunction.apply]

theorem binaryFunctions_iff {name : String} {f : δ → δ → δ} :
    (name, f) ∈ binaryFunctions ↔ ∃ g, BinaryFunction.ofName? name = some g ∧ f = g.apply := by
  constructor
  · intro h
    simp only [binaryFunctions, List.mem_cons, Prod.mk.injEq, List.not_mem_nil, or_false] at h
    obtain ⟨rfl, rfl⟩ | ⟨rfl, rfl⟩ | ⟨rfl, rfl⟩ := h <;> exact ⟨_, rfl, rfl⟩
  · rintro ⟨g, hg, rfl⟩
    obtain rfl : g.name = name := by simpa using List.find?_some hg
    cases g <;> simp [binaryFunctions, BinaryFunction.name, BinaryFunction.apply]

section Arguments

omit [Scalar δ] [Precision σ δ]

/-- Expressions with commas between them. -/
def Arguments (E : Phrases (Meaning σ δ)) : Phrases (List (Meaning σ δ)) :=
  Chain [(',', fun vs v => vs ++ [v])] (fun s vs => ∃ v, E s v ∧ vs = [v]) E

variable {E : Phrases (Meaning σ δ)}

theorem Arguments.inversion {s : List Char} {vs : List (Meaning σ δ)} (h : Arguments E s vs) :
    (∃ v, E s v ∧ vs = [v]) ∨
      ∃ t us u v, Arguments E t us ∧ E u v ∧ s = t ++ ',' :: u ∧ vs = us ++ [v] := by
  cases h with
  | first h => exact .inl h
  | more hs hf ht =>
    obtain ⟨rfl, rfl⟩ : _ = ',' ∧ _ = _ := by simpa using hf
    exact .inr ⟨_, _, _, _, hs, ht, rfl, rfl⟩

theorem Arguments.ne_nil {s : List Char} {vs : List (Meaning σ δ)} (h : Arguments E s vs) :
    vs ≠ [] := by
  obtain ⟨v, -, rfl⟩ | ⟨t, us, u, v, -, -, -, rfl⟩ := h.inversion <;> simp

theorem Arguments.singleton {s : List Char} {v : Meaning σ δ} (h : Arguments E s [v]) : E s v := by
  obtain ⟨w, hw, hv⟩ | ⟨t, us, u, w, ht, -, -, hv⟩ := h.inversion
  · obtain rfl : v = w := by simpa using hv
    exact hw
  · have hlen := congrArg List.length hv
    exact absurd (List.eq_nil_of_length_eq_zero (by simpa using hlen)) ht.ne_nil

theorem Arguments.pair {s : List Char} {v w : Meaning σ δ} (h : Arguments E s [v, w]) :
    ∃ t u, E t v ∧ E u w ∧ s = t ++ ',' :: u := by
  obtain ⟨x, -, hv⟩ | ⟨t, us, u, x, ht, hu, rfl, hv⟩ := h.inversion
  · simp at hv
  · obtain ⟨rfl, rfl⟩ : us = [v] ∧ x = w := by
      have hsplit : [v] ++ [w] = us ++ [x] := hv
      have := List.append_inj' hsplit rfl
      simpa [eq_comm] using this
    exact ⟨t, u, ht.singleton, hu, rfl⟩

end Arguments

/-! ## What stands behind a phrase -/

def exprEnd : List Char := [')', ',']

def sumEnd : List Char := ';' :: exprEnd

def termEnd : List Char := '+' :: '-' :: sumEnd

def factorEnd : List Char := '*' :: '/' :: termEnd

def primaryEnd : List Char := '^' :: factorEnd

theorem mem_primaryEnd {c : Char} (h : c ∈ primaryEnd) :
    isNameChar c = false ∧ c ≠ '(' ∧ c.isDigit = false ∧ c ≠ '.' ∧ c ≠ 'e' ∧ c ≠ 'E' := by
  simp only [primaryEnd, factorEnd, termEnd, sumEnd, exprEnd, List.mem_cons, List.not_mem_nil,
    or_false] at h
  obtain rfl | rfl | rfl | rfl | rfl | rfl | rfl | rfl := h <;> decide

theorem noName_of_goesOn {s : List Char} (h : GoesOn primaryEnd s) : NoName s :=
  fun c hc => (mem_primaryEnd (h c hc)).1

theorem noNumber_of_goesOn {s : List Char} (h : GoesOn primaryEnd s) : Decimal.NoNumber s :=
  fun c hc => (mem_primaryEnd (h c hc)).2.2

/-! ## Calls and symbols -/

variable {E : Phrases (Meaning σ δ)} {nested : Parser Expr} {n : Nat}

theorem implements_comma : Implements (fun c => if c = ',' then some fun as a => as ++ [a] else none)
    (List.map meaning) (meaning : Expr → Meaning σ δ) [(',', fun vs v => vs ++ [v])] where
  of_some h := by
    split at h
    · next hc =>
      cases h
      exact ⟨fun vs v => vs ++ [v], by simp [hc], by simp⟩
    · cases h
  of_mem h := by
    obtain ⟨rfl, rfl⟩ : _ = ',' ∧ _ = _ := by simpa using h
    exact ⟨_, rfl, by simp⟩

theorem arguments_eq (nested : Parser Expr) : arguments nested =
    chainFrom (fun c => if c = ',' then some fun as a => as ++ [a] else none)
      (fun s => (nested s).map fun (a, rest) => ([a], rest)) nested := by
  funext s
  simp only [arguments, chainFrom, Option.map_map]
  rfl

theorem arguments_sound (h : Sound nested meaning E) :
    Sound (arguments nested) (List.map meaning) (Arguments E) := by
  intro s as rest hs
  rw [arguments_eq] at hs
  refine chainFrom_sound implements_comma h hs fun bs r hbs => ?_
  obtain ⟨⟨a, r'⟩, ha, heq⟩ := Option.map_eq_some_iff.1 hbs
  cases heq
  obtain ⟨w, hw, rfl⟩ := h ha
  exact ⟨w, ⟨_, hw, rfl⟩, rfl⟩

theorem arguments_complete (h : Complete n exprEnd nested meaning E) :
    Complete n [')'] (arguments nested) (List.map meaning) (Arguments E) := by
  rw [arguments_eq]
  have hfirst : Complete n exprEnd (fun s => (nested s).map fun (a, rest) => ([a], rest))
      (List.map meaning) fun s vs => ∃ v, E s v ∧ vs = [v] := by
    rintro w vs ⟨v, hv, rfl⟩ hn rest hrest
    obtain ⟨a, ha, rfl⟩ := h hv hn hrest
    exact ⟨[a], by simp [ha], rfl⟩
  exact chainFrom_complete implements_comma hfirst h (by simp [exprEnd]) (by simp [exprEnd]) (by simp)

theorem parenthesised_eq_some {α : Type} {inner : Parser α} {s rest : List Char} {a : α}
    (h : parenthesised inner s = some (a, rest)) :
    ∃ r, s = '(' :: r ∧ inner r = some (a, ')' :: rest) := by
  unfold parenthesised at h
  split at h
  · split at h
    · next hs =>
      cases h
      exact ⟨_, rfl, hs⟩
    · cases h
  · cases h

theorem parenthesised_eq_none {α : Type} {inner : Parser α} {s : List Char}
    (h : ∀ c ∈ s.head?, c ≠ '(') : parenthesised inner s = none := by
  unfold parenthesised
  split
  · exact absurd rfl (h '(' (by simp))
  · rfl

theorem parenthesised_append {α : Type} {inner : Parser α} {s rest : List Char} {a : α}
    (h : inner (s ++ ')' :: rest) = some (a, ')' :: rest)) :
    parenthesised inner ('(' :: (s ++ ')' :: rest)) = some (a, rest) := by
  simp [parenthesised, h]

theorem call?_sound {behindSign : Bool} {name : String} {as : List Expr} {a : Expr} {s : List Char}
    (h : call? name as = some a) (hs : Arguments E s (as.map meaning)) :
    Primary E behindSign (name.toList ++ '(' :: (s ++ [')'])) a.meaning := by
  match as, h with
  | [b], h =>
    obtain ⟨f, hf, rfl⟩ := Option.map_eq_some_iff.1 h
    exact .unaryCall (unaryFunctions_iff.2 ⟨f, hf, rfl⟩) hs.singleton
  | [b, c], h =>
    obtain ⟨f, hf, rfl⟩ := Option.map_eq_some_iff.1 h
    obtain ⟨t, u, ht, hu, rfl⟩ := hs.pair
    rw [meaning_binaryCall]
    simpa using .binaryCall (binaryFunctions_iff.2 ⟨f, hf, rfl⟩) ht hu

theorem named_sound {behindSign : Bool} {name : String} {a : Expr} {s rest : List Char}
    (hnested : Sound nested meaning E) (h : named nested name s = some (a, rest)) :
    ∃ w, Primary E behindSign (name.toList ++ w) a.meaning ∧ s = w ++ rest := by
  unfold named at h
  split at h
  · next as r hargs =>
    obtain ⟨b, hb, heq⟩ := Option.map_eq_some_iff.1 h
    cases heq
    obtain ⟨r', rfl, hr'⟩ := parenthesised_eq_some hargs
    obtain ⟨w, hw, rfl⟩ := arguments_sound hnested hr'
    exact ⟨'(' :: (w ++ [')']), call?_sound hb hw, by simp⟩
  · obtain ⟨c, hc, heq⟩ := Option.map_eq_some_iff.1 h
    cases heq
    refine ⟨[], ?_, rfl⟩
    rw [← symbol_name_of_ofName? hc, List.append_nil]
    exact .symbol c

theorem named_symbol (c : Symbol) {rest : List Char} (hrest : GoesOn primaryEnd rest) :
    named nested c.name rest = some (.symbol c, rest) := by
  have hnone : parenthesised (arguments nested) rest = none :=
    parenthesised_eq_none fun c hc => (mem_primaryEnd (hrest c hc)).2.1
  simp [named, hnone, symbol_ofName?_name]

theorem named_call {name : String} {as : List Expr} {a : Expr} {s rest : List Char}
    (hs : arguments nested (s ++ ')' :: rest) = some (as, ')' :: rest)) (h : call? name as = some a) :
    named nested name ('(' :: (s ++ ')' :: rest)) = some (a, rest) := by
  simp [named, parenthesised_append hs, h]

/-! ## Primaries -/

theorem primary_sound {behindSign : Bool} {a : Expr} {s rest : List Char}
    (hnested : Sound nested meaning E) (hsign : behindSign = true ∨ NoSign s)
    (h : primary nested s = some (a, rest)) :
    ∃ w, Primary E behindSign w a.meaning ∧ s = w ++ rest := by
  unfold primary at h
  split at h
  · next name r hname =>
    obtain rfl := identifier_eq_some hname
    obtain ⟨w, hw, rfl⟩ := named_sound hnested h
    exact ⟨name.toList ++ w, hw, by simp⟩
  · split at h
    · next d r hread =>
      cases h
      obtain ⟨g, negative, u, hg, hu, rfl⟩ := Decimal.read_eq_some hread
      refine ⟨g ++ u, .number hg ?_ hu, by simp⟩
      cases hg with
      | none => exact .inl rfl
      | plus => exact .inr (hsign.resolve_right fun hs => (hs '+' (by simp)).1 rfl)
      | minus => exact .inr (hsign.resolve_right fun hs => (hs '-' (by simp)).2 rfl)
    · obtain ⟨r, rfl, hr⟩ := parenthesised_eq_some h
      obtain ⟨w, hw, rfl⟩ := hnested hr
      exact ⟨'(' :: (w ++ [')']), .group hw, by simp⟩

theorem primary_named {name : String} {s : List Char} (hname : IsName name) (hs : NoName s) :
    primary nested (name.toList ++ s) = named nested name s := by
  simp [primary, identifier_append hname hs]

theorem noName_parenthesis {s : List Char} : NoName ('(' :: s) := by
  simp [NoName, isNameChar]

theorem primary_complete {behindSign : Bool} (hnested : Complete n exprEnd nested meaning E) :
    Complete (n + 1) primaryEnd (primary nested) meaning (Primary E behindSign) := by
  intro w v hw hn rest hrest
  cases hw with
  | @number g negative u d hg _ hu =>
    have hnone : identifier (g ++ (u ++ rest)) = none := by
      obtain ⟨c, cs, rfl, hc⟩ := hu.head
      cases hg with
      | none =>
        rcases hc with hc | rfl
        · exact identifier_eq_none (not_isAlpha_digit hc)
        · exact identifier_eq_none (by decide)
      | plus => exact identifier_eq_none (by decide)
      | minus => exact identifier_eq_none (by decide)
    have hread := Decimal.read_append hg hu (noNumber_of_goesOn hrest)
    refine ⟨.number d, ?_, rfl⟩
    simp [primary, hnone, hread]
  | symbol c =>
    refine ⟨.symbol c, ?_, rfl⟩
    rw [primary_named (isName_symbol c) (noName_of_goesOn hrest), named_symbol c hrest]
  | @unaryCall name f s v hf hs =>
    obtain ⟨g, hg, rfl⟩ := unaryFunctions_iff.1 hf
    have hlen : s.length < n := by simp at hn; omega
    obtain ⟨as, has, hv⟩ := arguments_complete hnested (.first ⟨v, hs, rfl⟩) hlen
      (.cons (by simp) : GoesOn [')'] (')' :: rest))
    obtain ⟨a, rfl, rfl⟩ := List.map_eq_singleton_iff.1 hv
    refine ⟨.unaryCall g a, ?_, rfl⟩
    simp only [List.append_assoc, List.cons_append, List.nil_append]
    rw [primary_named (isName_unaryFunction hf) noName_parenthesis]
    exact named_call has (by simp [call?, hg])
  | @binaryCall name f s v t u hf hs ht =>
    obtain ⟨g, hg, rfl⟩ := binaryFunctions_iff.1 hf
    have hlen : (s ++ ',' :: t).length < n := by simp at hn ⊢; omega
    obtain ⟨as, has, hv⟩ := arguments_complete hnested
      (.more (.first ⟨v, hs, rfl⟩) (List.mem_singleton.2 rfl) ht) hlen
      (.cons (by simp) : GoesOn [')'] (')' :: rest))
    match as, hv with
    | [a, b], hv =>
      obtain ⟨rfl, rfl⟩ : a.meaning = v ∧ b.meaning = u := by simpa using hv
      have hcall := named_call has (show call? name [a, b] = some (.binaryCall g a b) by simp [call?, hg])
      refine ⟨.binaryCall g a b, ?_, rfl⟩
      simp only [List.append_assoc, List.cons_append, List.nil_append] at hcall ⊢
      rw [primary_named (isName_binaryFunction hf) noName_parenthesis, hcall]
  | @group s v hs =>
    have hlen : s.length < n := by simp at hn; omega
    obtain ⟨a, ha, rfl⟩ := hnested hs hlen (.cons (by simp [exprEnd]) : GoesOn exprEnd (')' :: rest))
    refine ⟨a, ?_, rfl⟩
    have hread : Decimal.read ('(' :: (s ++ ')' :: rest)) = none :=
      Decimal.read_eq_none (by decide) (by decide)
    have hnone : identifier ('(' :: (s ++ ')' :: rest)) = none := identifier_eq_none (by decide)
    simp [primary, hnone, hread, parenthesised_append ha]

/-! ## Signs -/

/-- The values of a phrase behind its sign. -/
def signedMeaning (x : Bool × Expr) : Meaning σ δ := (negateIf x.1 x.2).meaning

/-- An optional sign, and what `p` takes behind it. -/
def signed (p : Parser Expr) : Parser (Bool × Expr) :=
  fun s => (p (splitSign s).2).map fun (a, rest) => (((splitSign s).1, a), rest)

variable {p : Parser Expr} {alone behind : Phrases (Meaning σ δ)} {cs : List Char}

theorem signed_sound
    (halone : ∀ s a rest, NoSign s → p s = some (a, rest) → ∃ w, alone w a.meaning ∧ s = w ++ rest)
    (hbehind : Sound p meaning behind) : Sound (signed p) signedMeaning (Signed alone behind) := by
  intro s x rest h
  obtain ⟨⟨a, r⟩, ha, heq⟩ := Option.map_eq_some_iff.1 h
  cases heq
  obtain ⟨t, rfl⟩ | ⟨t, rfl⟩ | hs := splitSign_cases s
  · obtain ⟨w, hw, rfl⟩ := hbehind ha
    exact ⟨'+' :: w, .plus hw, rfl⟩
  · obtain ⟨w, hw, rfl⟩ := hbehind ha
    exact ⟨'-' :: w, .minus hw, rfl⟩
  · rw [splitSign_of_noSign hs] at ha ⊢
    obtain ⟨w, hw, rfl⟩ := halone _ _ _ hs ha
    exact ⟨w, .plain hw, rfl⟩

theorem signed_complete (hsign : ∀ w v rest, alone w v → NoSign (w ++ rest))
    (halone : Complete n cs p meaning alone) (hbehind : Complete n cs p meaning behind) :
    Complete n cs (signed p) signedMeaning (Signed alone behind) := by
  intro w v hw hn rest hrest
  cases hw with
  | plain hw =>
    obtain ⟨a, ha, rfl⟩ := halone hw hn hrest
    refine ⟨(false, a), ?_, rfl⟩
    simp [signed, splitSign_of_noSign (hsign _ _ _ hw), ha]
  | @plus s v hw =>
    have hlen : s.length < n := by simp at hn; omega
    obtain ⟨a, ha, rfl⟩ := hbehind hw hlen hrest
    exact ⟨(false, a), by simp [signed, splitSign, ha], rfl⟩
  | @minus s v hw =>
    have hlen : s.length < n := by simp at hn; omega
    obtain ⟨a, ha, rfl⟩ := hbehind hw hlen hrest
    exact ⟨(true, a), by simp [signed, splitSign, ha], rfl⟩

theorem noSign_of_isName {name : String} (h : IsName name) (s : List Char) :
    NoSign (name.toList ++ s) := by
  obtain ⟨c, cs, hname, hc, -⟩ := h
  intro d hd
  rw [hname] at hd
  cases hd
  constructor <;> rintro rfl <;> exact absurd hc (by decide)

/-- A primary that stands alone does not start with a sign. -/
theorem noSign_of_primary {w : List Char} {v : Meaning σ δ} (h : Primary E false w v)
    (rest : List Char) : NoSign (w ++ rest) := by
  cases h with
  | @number g negative u d hg halone hu =>
    obtain rfl : g = [] := by simpa using halone
    obtain ⟨c, cs, rfl, hc⟩ := hu.head
    intro d hd
    cases hd
    rcases hc with hc | rfl
    · exact not_isDigit_sign hc
    · decide
  | symbol c => exact noSign_of_isName (isName_symbol c) _
  | unaryCall hf hs =>
    rw [List.append_assoc]
    exact noSign_of_isName (isName_unaryFunction hf) _
  | binaryCall hf hs ht =>
    rw [List.append_assoc]
    exact noSign_of_isName (isName_binaryFunction hf) _
  | group hs => simp [NoSign]

theorem noSign_of_powers {w : List Char} {v : Meaning σ δ}
    (h : Chain powers (Primary E false) (Exponent E) w v) (rest : List Char) : NoSign (w ++ rest) := by
  induction h generalizing rest with
  | first hw => exact noSign_of_primary hw rest
  | more _ _ _ ih =>
    rw [List.append_assoc]
    exact ih _

/-! ## Powers and factors -/

theorem exponent_sound (hnested : Sound nested meaning E) :
    Sound (signedPrimary nested) signedMeaning (Exponent E) := by
  intro s x rest h
  obtain ⟨w, hw, heq⟩ := signed_sound (p := primary nested)
    (fun _ _ _ hs h => primary_sound hnested (.inr hs) h)
    (fun _ _ _ h => primary_sound hnested (.inl rfl) h) h
  exact ⟨w, .intro hw, heq⟩

theorem exponent_complete (hnested : Complete n exprEnd nested meaning E) :
    Complete (n + 1) primaryEnd (signedPrimary nested) signedMeaning (Exponent E) := by
  rintro w v ⟨hw⟩ hn rest hrest
  exact signed_complete (fun _ _ _ h => noSign_of_primary h _) (primary_complete hnested)
    (primary_complete hnested) hw hn hrest

/-- The separator of powers. -/
def power (c : Char) : Option (Expr → Bool × Expr → Expr) :=
  if c = '^' then some fun a (negative, b) => .binary .pow a (negateIf negative b) else none

theorem implements_power : Implements power meaning signedMeaning (powers : Rank σ δ) where
  of_some h := by
    unfold power at h
    split at h
    · next hc =>
      cases h
      exact ⟨.map₂ Scalar.pow, by simp [powers, hc], fun _ _ => rfl⟩
    · cases h
  of_mem h := by
    obtain ⟨rfl, rfl⟩ : _ = '^' ∧ _ = _ := by simpa [powers] using h
    exact ⟨_, rfl, fun _ _ => rfl⟩

/-- A primary and the exponents behind it. -/
def powerChain (nested : Parser Expr) : Parser Expr :=
  chainFrom power (primary nested) (signedPrimary nested)

theorem factor_eq (nested : Parser Expr) (s : List Char) : factor nested s =
    (signed (powerChain nested) s).map fun (x, rest) => (negateIf x.1 x.2, rest) := by
  simp only [factor, signedPrimary, signed, powerChain, chainFrom, Option.map_map]
  rfl

theorem powerChain_complete {behindSign : Bool} (hnested : Complete n exprEnd nested meaning E) :
    Complete (n + 1) factorEnd (powerChain nested) meaning
      (Chain powers (Primary E behindSign) (Exponent E)) :=
  chainFrom_complete implements_power (primary_complete hnested) (exponent_complete hnested)
    (by simp [powers, primaryEnd]) (by simp [primaryEnd])
    (by simp [power, factorEnd, termEnd, sumEnd, exprEnd])

theorem factor_sound (hnested : Sound nested meaning E) : Sound (factor nested) meaning (Factor E) := by
  intro s a rest h
  rw [factor_eq] at h
  obtain ⟨⟨x, r⟩, hx, heq⟩ := Option.map_eq_some_iff.1 h
  cases heq
  have hexp := exponent_sound hnested
  obtain ⟨w, hw, heq⟩ := signed_sound (p := powerChain nested)
    (fun _ _ _ hs h => chainFrom_sound implements_power hexp h
      fun _ _ ha => primary_sound hnested (.inr hs) ha)
    (fun _ _ _ h => chainFrom_sound implements_power hexp h
      fun _ _ ha => primary_sound hnested (.inl rfl) ha) hx
  exact ⟨w, .intro hw, heq⟩

theorem factor_complete (hnested : Complete n exprEnd nested meaning E) :
    Complete (n + 1) factorEnd (factor nested) meaning (Factor E) := by
  rintro w v ⟨hw⟩ hn rest hrest
  obtain ⟨x, hx, rfl⟩ := signed_complete (fun _ _ _ h => noSign_of_powers h _)
    (powerChain_complete hnested) (powerChain_complete hnested) hw hn hrest
  exact ⟨negateIf x.1 x.2, by simp [factor_eq, hx], rfl⟩

/-! ## Terms, sums and sequences -/

theorem implements_pair {x y : Char} {f g : Operator} (hne : y ≠ x) :
    Implements (fun c => if c = x then some (binary f) else if c = y then some (binary g) else none)
      meaning meaning ([(x, .map₂ f.apply), (y, .map₂ g.apply)] : Rank σ δ) where
  of_some h := by
    split at h
    · next hx =>
      cases h
      exact ⟨.map₂ f.apply, by simp [hx], fun _ _ => rfl⟩
    · split at h
      · next hy =>
        cases h
        exact ⟨.map₂ g.apply, by simp [hy], fun _ _ => rfl⟩
      · cases h
  of_mem h := by
    obtain ⟨rfl, rfl⟩ | ⟨rfl, rfl⟩ : (_ = x ∧ _ = _) ∨ (_ = y ∧ _ = _) := by simpa using h
    · exact ⟨binary f, by simp, fun _ _ => rfl⟩
    · exact ⟨binary g, by simp [hne], fun _ _ => rfl⟩

theorem implements_sequence : Implements (fun c => if c = ';' then some andThen else none)
    meaning meaning (sequences : Rank σ δ) where
  of_some h := by
    split at h
    · next hc =>
      cases h
      exact ⟨.map₂ fun _ y => y, by simp [sequences, hc], fun _ _ => rfl⟩
    · cases h
  of_mem h := by
    obtain ⟨rfl, rfl⟩ : _ = ';' ∧ _ = _ := by simpa [sequences] using h
    exact ⟨_, rfl, fun _ _ => rfl⟩

theorem term_sound (hnested : Sound nested meaning E) : Sound (term nested) meaning (Term E) := by
  intro s a rest h
  have hfactor := factor_sound hnested
  obtain ⟨w, hw, heq⟩ := chainFrom_sound (implements_pair (f := .mul) (g := .div) (by decide)) hfactor h
    fun _ _ ha => hfactor ha
  exact ⟨w, .intro hw, heq⟩

theorem term_complete (hnested : Complete n exprEnd nested meaning E) :
    Complete (n + 1) termEnd (term nested) meaning (Term E) := by
  rintro w v ⟨hw⟩ hn rest hrest
  have hfactor := factor_complete hnested
  exact chainFrom_complete (implements_pair (f := .mul) (g := .div) (by decide)) hfactor hfactor
    (by rintro _ _ (_ | ⟨_, _ | ⟨_, ⟨⟩⟩⟩) <;> simp [factorEnd]) (by simp [factorEnd])
    (by simp [termEnd, sumEnd, exprEnd]) hw hn hrest

theorem sum_sound (hnested : Sound nested meaning E) : Sound (sum nested) meaning (Sum E) := by
  intro s a rest h
  have hterm := term_sound hnested
  obtain ⟨w, hw, heq⟩ := chainFrom_sound (implements_pair (f := .add) (g := .sub) (by decide)) hterm h
    fun _ _ ha => hterm ha
  exact ⟨w, .intro hw, heq⟩

theorem sum_complete (hnested : Complete n exprEnd nested meaning E) :
    Complete (n + 1) sumEnd (sum nested) meaning (Sum E) := by
  rintro w v ⟨hw⟩ hn rest hrest
  have hterm := term_complete hnested
  exact chainFrom_complete (implements_pair (f := .add) (g := .sub) (by decide)) hterm hterm
    (by rintro _ _ (_ | ⟨_, _ | ⟨_, ⟨⟩⟩⟩) <;> simp [termEnd]) (by simp [termEnd])
    (by simp [sumEnd, exprEnd]) hw hn hrest

/-- The depth bounds only how much is taken, so it does not matter for what is taken. -/
theorem expr_sound (depth : Nat) : Sound (expr depth) meaning (Sentence : Phrases (Meaning σ δ)) := by
  induction depth with
  | zero =>
    intro s a rest h
    cases h
  | succ depth ih =>
    intro s a rest h
    have hsum := sum_sound ih
    have hsep : Implements _ meaning meaning (sequences : Rank σ δ) := implements_sequence
    obtain ⟨w, hw, heq⟩ := chainFrom_sound hsep hsum h fun _ _ ha => hsum ha
    exact ⟨w, .intro hw, heq⟩

/-- A sentence is not nested deeper than it is long. -/
theorem expr_complete (depth : Nat) :
    Complete depth exprEnd (expr depth) meaning (Sentence : Phrases (Meaning σ δ)) := by
  induction depth with
  | zero =>
    intro w v _ hn
    exact absurd hn (Nat.not_lt_zero _)
  | succ depth ih =>
    rintro w v ⟨hw⟩ hn rest hrest
    have hsum := sum_complete ih
    have hsep : Implements _ meaning meaning (sequences : Rank σ δ) := implements_sequence
    exact chainFrom_complete hsep hsum hsum (by simp [sequences, sumEnd])
      (by simp [sumEnd]) (by simp [exprEnd]) hw hn hrest

/-! ## Whole texts -/

theorem read?_eq_some {s : List Char} {a : Expr} (h : read? s = some a) :
    Sentence s (a.meaning : Meaning σ δ) := by
  unfold read? at h
  split at h
  · next b hb =>
    cases h
    have hsound : Sound (expr (s.length + 1)) meaning (Sentence : Phrases (Meaning σ δ)) :=
      expr_sound _
    obtain ⟨w, hw, rfl⟩ := hsound hb
    simpa using hw
  · cases h

theorem read?_of_sentence {s : List Char} {v : Meaning σ δ} (h : Sentence s v) :
    ∃ a, read? s = some a ∧ a.meaning = v := by
  obtain ⟨a, ha, hv⟩ := expr_complete (s.length + 1) h (Nat.lt_succ_self _) .nil
  rw [List.append_nil] at ha
  exact ⟨a, by simp [read?, ha], hv⟩

end Expr

namespace Equation

/-- The values of an equation. -/
def meaning (e : Equation) : Meaning σ δ := fun table r => (e.eval table r).value

theorem map_meaning_read? (s : String) (v : Meaning σ δ) :
    (read? s).map meaning = some v ↔ Sentence (compact s) v := by
  rw [read?, Option.map_map]
  constructor
  · intro h
    obtain ⟨a, ha, rfl⟩ := Option.map_eq_some_iff.1 h
    exact Expr.read?_eq_some ha
  · intro h
    obtain ⟨a, ha, rfl⟩ := Expr.read?_of_sentence h
    rw [ha]
    rfl

theorem isSome_read? (s : String) :
    (read? s).isSome ↔ ∃ v : Meaning σ δ, Sentence (compact s) v := by
  simp only [← map_meaning_read?, Option.isSome_iff_exists, Option.map_eq_some_iff]
  constructor
  · rintro ⟨e, he⟩
    exact ⟨_, e, he, rfl⟩
  · rintro ⟨v, e, he, -⟩
    exact ⟨e, he⟩

/-- The texts that are read are the sentences of the grammar without their white space, and their values
    are what the sentences mean. So an equation is malformed just when it is no sentence, and a sentence
    means one thing only. -/
theorem reads_exactly_sentences [Scalar σ] (s : String) :
    ((read? s).isSome ↔ ∃ v : Meaning σ δ, Sentence (compact s) v) ∧
    (∀ v : Meaning σ δ, (read? s).map meaning = some v ↔ Sentence (compact s) v) ∧
    ((parse s : Attempt (Event σ δ) (Fault σ δ) Equation).outcome =
      .error (.invalidEquation s .malformed) ↔ ¬ ∃ v : Meaning σ δ, Sentence (compact s) v) := by
  refine ⟨isSome_read? s, map_meaning_read? s, ?_⟩
  rw [← isSome_read?]
  cases hs : read? s with
  | none => simp [parse, hs]
  | some e =>
    have hparse : (parse s : Attempt (Event σ δ) (Fault σ δ) Equation).outcome ≠
        .error (.invalidEquation s .malformed) := by
      simp only [parse, hs, Attempt.outcome_bind, Attempt.outcome_ofLogged]
      intro h
      change Attempt.outcome (ite _ _ _) = _ at h
      split at h <;> cases h
    simp [hparse]

end Equation
end RateControl
