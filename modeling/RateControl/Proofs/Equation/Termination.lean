-- SUMMARY: Reading a rate equation ends on every text, takes at least one character whenever it takes anything, and goes inside of parentheses with a shorter text only.
import RateControl.Proofs.Equation.Descent

/-! # Termination of the descent

Every rule comes to an end on every text, with one outcome, and never with a repetition that stalls. The
reason is the same for every rule: what it takes is a beginning of the text that is not empty, so a repetition
goes on with a shorter text, and what stands inside of parentheses is shorter than what stands around them.

A parser of bounded depth yields what the rule takes on every text that is not longer than the bound. Where the
rule fails for good the parser may have gone back to something that it took before, but then it stopped in front
of a character that no rule around it takes. -/

namespace RateControl

open RateControl.Expr (Parser GoesOn chain chainFrom)
open Numeral (splitSign)

namespace Descent

/-! ## Rests of a text -/

/-- The text goes on, with one of the characters. -/
def StopsAt (cs s : List Char) : Prop := s ≠ [] ∧ GoesOn cs s

theorem StopsAt.cons {cs s : List Char} {c : Char} (h : c ∈ cs) : StopsAt cs (c :: s) := ⟨by simp, .cons h⟩

theorem StopsAt.mono {cs ds s : List Char} (h : StopsAt cs s) (hsub : cs ⊆ ds) : StopsAt ds s :=
  ⟨h.1, h.2.mono hsub⟩

theorem StopsAt.head {cs s : List Char} {c : Char} (h : StopsAt cs (c :: s)) : c ∈ cs := h.2 c (by simp)

theorem not_stopsAt_nil {s : List Char} : ¬ StopsAt [] s := by
  cases s with
  | nil => exact fun h => h.1 rfl
  | cons c s => exact fun h => absurd h.head (by simp)

/-- What is left of a text behind a beginning that is not empty. -/
def IsRest (rest s : List Char) : Prop := rest <:+ s ∧ rest.length < s.length

theorem IsRest.tail {c : Char} {s : List Char} : IsRest s (c :: s) := ⟨List.suffix_cons c s, by simp⟩

theorem IsRest.of_suffix_left {r s t : List Char} (h : r <:+ s) (h' : IsRest s t) : IsRest r t :=
  ⟨h.trans h'.1, h.length_le.trans_lt h'.2⟩

theorem IsRest.of_suffix_right {r s t : List Char} (h : IsRest r s) (h' : s <:+ t) : IsRest r t :=
  ⟨h.1.trans h', h.2.trans_le h'.length_le⟩

/-! ## Outcomes and parsers -/

namespace Outcome

variable {α β : Type}

/-- What the outcome on the text says about what a parser yields there. -/
def Tells (r : Option (α × List Char)) (cs s : List Char) : Outcome α → Prop
  | taken a rest => r = some (a, rest) ∧ IsRest rest s
  | refused      => r = none
  | failed       => ∀ a rest, r = some (a, rest) → StopsAt cs rest ∧ IsRest rest s
  | stalled      => False

/-- What the outcome of a repetition on the text says about what a chain yields there, which is always
    something. -/
def TellsChain (r : α × List Char) (cs s : List Char) : Outcome α → Prop
  | taken a rest => r = (a, rest) ∧ rest <:+ s
  | failed       => StopsAt cs r.2 ∧ r.2 <:+ s
  | _            => False

theorem Tells.mono {r : Option (α × List Char)} {cs ds s t : List Char} {o : Outcome α} (h : o.Tells r cs s)
    (hsub : cs ⊆ ds) (ht : s <:+ t) : o.Tells r ds t := by
  cases o with
  | taken a rest => exact ⟨h.1, h.2.of_suffix_right ht⟩
  | refused => exact h
  | failed => exact fun a rest hr => ⟨(h a rest hr).1.mono hsub, (h a rest hr).2.of_suffix_right ht⟩
  | stalled => exact h

theorem Tells.map {r : Option (α × List Char)} {cs s : List Char} {o : Outcome α} (f : α → β)
    (h : o.Tells r cs s) : (o.map f).Tells (r.map fun x => (f x.1, x.2)) cs s := by
  cases o with
  | taken a rest => exact ⟨by rw [h.1]; rfl, h.2⟩
  | refused =>
    have hr : r = none := h
    exact congrArg (Option.map _) hr
  | failed =>
    intro b rest hr
    obtain ⟨⟨a, rest'⟩, ha, heq⟩ := Option.map_eq_some_iff.1 hr
    cases heq
    exact h a rest' ha
  | stalled => exact h

/-- Where there was a failure for good and nothing can stop, nothing was yielded. -/
theorem Tells.eq_none {r : Option (α × List Char)} {s : List Char} (h : (failed : Outcome α).Tells r [] s) :
    r = none := by
  cases r with
  | none => rfl
  | some x => exact absurd (h x.1 x.2 rfl).1 not_stopsAt_nil

end Outcome

/-- On texts that are shorter than `n` the rule comes to an end, with an outcome that tells what the parser
    yields. -/
def Settles {α : Type} (n : Nat) (p : Parser α) (cs : List Char) (R : Runs α) : Prop :=
  ∀ s, s.length < n → ∃ o, EndsWith R s o ∧ o.Tells (p s) cs s

theorem Settles.imp {α : Type} {n : Nat} {p : Parser α} {cs : List Char} {R R' : Runs α} (h : Settles n p cs R)
    (hR : ∀ {s o}, EndsWith R s o → EndsWith R' s o) : Settles n p cs R' := by
  intro s hn
  obtain ⟨o, ho, htells⟩ := h s hn
  exact ⟨o, hR ho, htells⟩

/-! ## Repetitions -/

section Repetitions

variable {α β : Type} {separator : Char → Option (α → β → α)} {operand : Runs β} {first : Runs α}
  {n : Nat} {p : Parser α} {q : Parser β} {cs ds : List Char}

/-- An operand that failed for good ends the chain, in front of its separator or behind what was taken of it. -/
theorem chain_tells_failed {a : α} {c : Char} {s : List Char} {g : α → β → α} (hc : separator c = some g)
    (hs : (Outcome.failed : Outcome β).Tells (q s) cs s) (hcs : ∀ c ∈ cs, separator c = none) (hin : c ∈ ds)
    (hsub : cs ⊆ ds) (m : Nat) :
    (Outcome.failed : Outcome α).TellsChain (chain separator q (m + 1) a (c :: s)) ds (c :: s) := by
  simp only [chain, hc]
  cases hq : q s with
  | none => exact ⟨.cons hin, List.suffix_rfl⟩
  | some x =>
    obtain ⟨hstop, hrest⟩ := hs x.1 x.2 hq
    have hchain := Expr.chain_stops (q := q) (n := m) (a := g a x.1) hcs hstop.2
    simp only [hchain]
    exact ⟨hstop.mono hsub, hrest.1.trans (List.suffix_cons c s)⟩

/-- Every turn leaves a shorter text, so the induction is on the length of the text. -/
theorem Turns.settles (hq : Settles n q cs operand) (hcs : ∀ c ∈ cs, separator c = none)
    (hops : ∀ c, separator c ≠ none → c ∈ ds) (hsub : cs ⊆ ds) (a : α) (s : List Char)
    (hn : s.length ≤ n) (m : Nat) (hm : s.length ≤ m) :
    ∃ o, EndsWith (Turns separator operand a) s o ∧ o.TellsChain (chain separator q m a s) ds s := by
  induction hlen : s.length using Nat.strong_induction_on generalizing s a m with
  | _ k ih =>
    subst hlen
    cases s with
    | nil => exact ⟨_, Turns.endsWith_done (by simp), by cases m <;> exact ⟨rfl, List.suffix_rfl⟩⟩
    | cons c s =>
      obtain ⟨m, rfl⟩ : ∃ i, m = i + 1 := ⟨m - 1, by simp at hm; omega⟩
      simp only [List.length_cons] at hn hm
      cases hc : separator c with
      | none => exact ⟨_, Turns.endsWith_done (by simp [hc]), by simp [chain, hc, Outcome.TellsChain]⟩
      | some g =>
        obtain ⟨o, ho, htells⟩ := hq s (by omega)
        cases o with
        | taken b rest =>
          obtain ⟨hs, hrest⟩ := htells
          have hlt : rest.length < (c :: s).length := hrest.2.trans (by simp)
          have hle : rest.length ≤ s.length := hrest.2.le
          obtain ⟨o, hmore, hchain⟩ := ih rest.length hlt (g a b) rest (by omega) m (by omega) rfl
          refine ⟨o, Turns.endsWith_again hc ho hlt hmore, ?_⟩
          have heq : chain separator q (m + 1) a (c :: s) = chain separator q m (g a b) rest := by
            simp [chain, hc, hs]
          have hsuffix : rest <:+ c :: s := hrest.1.trans (List.suffix_cons c s)
          rw [heq]
          cases o with
          | taken d r => exact ⟨hchain.1, hchain.2.trans hsuffix⟩
          | failed => exact ⟨hchain.1, hchain.2.trans hsuffix⟩
          | _ => exact hchain
        | refused =>
          have hs : q s = none := htells
          exact ⟨_, Turns.endsWith_stopped hc ho rfl, by simp [chain, hc, hs, Outcome.before, Outcome.TellsChain]⟩
        | failed =>
          exact ⟨_, Turns.endsWith_stopped hc ho rfl,
            chain_tells_failed hc htells hcs (hops c (by simp [hc])) hsub m⟩
        | stalled => exact absurd htells id

/-- What a repetition yields behind a first operand. -/
theorem Outcome.TellsChain.tells {o : Outcome α} {r : α × List Char} {ds rest s : List Char}
    (h : o.TellsChain r ds rest) (hrest : IsRest rest s) : o.Tells (some r) ds s := by
  cases o with
  | taken b r' => exact ⟨congrArg some h.1, .of_suffix_left h.2 hrest⟩
  | failed =>
    rintro b r' ⟨⟩
    exact ⟨h.1, .of_suffix_left h.2 hrest⟩
  | _ => exact absurd h id

theorem Repeated.settles (hp : Settles n p cs first) (hq : Settles n q cs operand)
    (hcs : ∀ c ∈ cs, separator c = none) (hops : ∀ c, separator c ≠ none → c ∈ ds) (hsub : cs ⊆ ds) :
    Settles n (chainFrom separator p q) ds (Repeated separator first operand) := by
  intro s hn
  obtain ⟨o, ho, htells⟩ := hp s hn
  cases o with
  | taken a rest =>
    obtain ⟨hs, hrest⟩ := htells
    have hle : rest.length ≤ n := (hrest.2.trans hn).le
    obtain ⟨o, hturns, hchain⟩ := Turns.settles hq hcs hops hsub a rest hle _ le_rfl
    refine ⟨o, Repeated.endsWith_followed ho hturns, ?_⟩
    simpa only [chainFrom, hs, Option.map_some] using hchain.tells hrest
  | refused =>
    have hs : p s = none := htells
    exact ⟨_, Repeated.endsWith_stopped ho rfl, by simp [chainFrom, hs, Outcome.Tells]⟩
  | failed =>
    refine ⟨_, Repeated.endsWith_stopped ho rfl, fun b r hb => ?_⟩
    obtain ⟨⟨a, rest⟩, ha, hchain⟩ := Option.map_eq_some_iff.1 hb
    obtain ⟨hstop, hrest⟩ := htells a rest ha
    simp only [Expr.chain_stops hcs hstop.2, Prod.mk.injEq] at hchain
    obtain ⟨-, rfl⟩ := hchain
    exact ⟨hstop.mono hsub, hrest⟩
  | stalled => exact absurd htells id

end Repetitions

/-! ## Parentheses and arguments -/

section Parentheses

variable {α β : Type} {n : Nat} {p : Parser α} {R : Runs α} {cs : List Char}

theorem Mapped.settles (f : α → β) (h : Settles n p cs R) :
    Settles n (fun s => (p s).map fun x => (f x.1, x.2)) cs (Mapped f R) := by
  intro s hn
  obtain ⟨o, ho, htells⟩ := h s hn
  exact ⟨_, Mapped.endsWith ho, htells.map f⟩

theorem parenthesised_opened (s : List Char) : Expr.parenthesised p ('(' :: s) =
    match p s with
    | some (a, ')' :: rest) => some (a, rest)
    | _                     => none := rfl

/-- What fails for good inside of parentheses does not stop at their end. -/
theorem Outcome.Tells.closed {o : Outcome α} {s : List Char} (h : o.Tells (p s) cs s) (hcs : ')' ∉ cs) :
    o.closed.Tells (Expr.parenthesised p ('(' :: s)) [] ('(' :: s) := by
  rw [parenthesised_opened]
  cases o with
  | taken a rest =>
    obtain ⟨hs, hrest⟩ := h
    rw [hs]
    split
    · next heq =>
      cases heq
      exact ⟨rfl, .of_suffix_left (List.suffix_cons _ _) (hrest.of_suffix_right (List.suffix_cons _ _))⟩
    · next hne =>
      have hrefused : (taken a rest).closed = refused := by
        unfold Outcome.closed
        split
        · next heq =>
          cases heq
          exact absurd rfl (hne _ _)
        · rfl
        · next hne' => exact absurd rfl (hne' _ _)
      rw [hrefused]
      rfl
  | refused =>
    have hs : p s = none := h
    simp [hs, Outcome.closed, Outcome.Tells]
  | failed =>
    intro a rest hr
    split at hr
    · next hs => exact absurd (h _ _ hs).1.head hcs
    · cases hr
  | stalled => exact h

theorem Parenthesised.settles (h : Settles n p cs R) (hcs : ')' ∉ cs) :
    Settles (n + 1) (Expr.parenthesised p) [] (Parenthesised R) := by
  intro s hn
  by_cases hopen : s.head? = some '('
  · obtain ⟨s, rfl⟩ := List.head?_eq_some_iff.1 hopen
    obtain ⟨o, ho, htells⟩ := h s (by simpa using hn)
    exact ⟨_, Parenthesised.endsWith_opened ho, htells.closed hcs⟩
  · refine ⟨_, Parenthesised.endsWith_unopened hopen, Expr.parenthesised_eq_none fun c hc => ?_⟩
    rintro rfl
    exact hopen hc

theorem Parenthesised.head? {s : List Char} {o : Outcome α} (h : Parenthesised R s o) (ho : o ≠ .refused) :
    s.head? = some '(' := by
  cases h with
  | unopened => exact absurd rfl ho
  | opened => rfl

end Parentheses

variable {n : Nat} {nested : Parser Expr} {E : Runs Expr} {cs : List Char}

theorem Arguments.settles (h : Settles n nested cs E) (hcs : ',' ∉ cs) :
    Settles n (Expr.arguments nested) (',' :: cs) (Arguments E) := by
  rw [Expr.arguments_eq]
  refine (Repeated.settles (Mapped.settles (fun a => [a]) h) h ?_ ?_ ?_).imp Arguments.endsWith
  · intro c hc
    exact if_neg (ne_of_mem_of_not_mem hc hcs)
  · intro c hc
    by_cases heq : c = ','
    · simp [heq]
    · exact absurd (if_neg heq) hc
  · exact List.subset_cons_self _ _

/-! ## Primaries -/

theorem isRest_of_identifier {s rest : List Char} {name : String} (h : Expr.identifier s = some (name, rest)) :
    IsRest rest s := by
  unfold Expr.identifier at h
  split at h
  · cases h
  · split at h
    · cases h
      exact .of_suffix_left (List.dropWhile_suffix _) .tail
    · cases h

theorem suffix_splitSign (s : List Char) : (splitSign s).2 <:+ s := by
  unfold splitSign
  split
  · exact List.suffix_cons _ _
  · exact List.suffix_cons _ _
  · exact List.suffix_rfl

theorem isRest_of_read {s rest : List Char} {d : Decimal} (h : Decimal.read s = some (d, rest)) :
    IsRest rest s := by
  obtain ⟨g, negative, u, -, hu, rfl⟩ := Decimal.read_eq_some h
  obtain ⟨c, cs, rfl, -⟩ := hu.head
  exact ⟨⟨g ++ c :: cs, by simp⟩, by simp; omega⟩

theorem number_tells (s : List Char) :
    (number s).Tells ((Decimal.read s).map fun x => (.number x.1, x.2)) [] s := by
  unfold number
  cases hm : Decimal.readMantissa (splitSign s).2 with
  | none =>
    have hread : Decimal.read s = none := by simp [Decimal.read, hm]
    simp [hread, Outcome.Tells]
  | some m =>
    cases hx : Decimal.readExponent m.2 with
    | none =>
      have hread : Decimal.read s = none := by simp [Decimal.read, hm, hx]
      simp [hread, hx, Outcome.Tells]
    | some x =>
      have hread : Decimal.read s =
          some (⟨(splitSign s).1, Numeral.ofDigits m.1.1, x.1 - m.1.2⟩, x.2) := by
        simp [Decimal.read, hm, hx]
      simp only [hread, hx, Option.map_some]
      exact ⟨rfl, isRest_of_read hread⟩

theorem number_parenthesis (s : List Char) : number ('(' :: s) = .refused := rfl

/-- An argument list that failed for good is abandoned, and the name in front of it is tried as a symbol, which
    stops in front of the parenthesis. -/
theorem named_tells (h : Settles n nested cs E) (hcomma : ',' ∉ cs) (hclose : ')' ∉ cs) {s behind : List Char}
    {name : String} (hname : Expr.identifier s = some (name, behind)) (hn : s.length < n + 1) :
    ∃ o, EndsWith (Parenthesised (Arguments E)) behind o ∧
      (o.named name behind).Tells (Expr.named nested name behind) ['('] s := by
  have hbehind := isRest_of_identifier hname
  obtain ⟨o, ho, htells⟩ := Parenthesised.settles (Arguments.settles h hcomma) (by simpa using hclose) behind
    (hbehind.2.trans hn)
  refine ⟨o, ho, ?_⟩
  cases o with
  | taken as rest =>
    obtain ⟨has, hrest⟩ := htells
    cases hcall : Expr.call? name as with
    | none => simp [Outcome.named, Outcome.orFailed, Outcome.Tells, Expr.named, has, hcall]
    | some a =>
      simp only [Outcome.named, Outcome.orFailed, Expr.named, has, hcall]
      exact ⟨rfl, hrest.of_suffix_right hbehind.1⟩
  | refused =>
    have hnone : Expr.parenthesised (Expr.arguments nested) behind = none := htells
    cases hsymbol : Symbol.ofName? name with
    | none => simp [Outcome.named, Outcome.orFailed, Outcome.Tells, Expr.named, hnone, hsymbol]
    | some c =>
      simp only [Outcome.named, Outcome.orFailed, Expr.named, hnone, hsymbol]
      exact ⟨rfl, hbehind⟩
  | failed =>
    intro a rest hr
    have hopen : behind.head? = some '(' := Parenthesised.head? ((ho _).2 rfl) (by simp)
    obtain ⟨r, rfl⟩ := List.head?_eq_some_iff.1 hopen
    simp only [Expr.named, htells.eq_none] at hr
    obtain ⟨c, -, heq⟩ := Option.map_eq_some_iff.1 hr
    cases heq
    exact ⟨.cons (by simp), hbehind⟩
  | stalled => exact absurd htells id

theorem Primary.settles (h : Settles n nested cs E) (hcomma : ',' ∉ cs) (hclose : ')' ∉ cs) :
    Settles (n + 1) (Expr.primary nested) ['('] (Primary E) := by
  intro s hn
  cases hname : Expr.identifier s with
  | some x =>
    obtain ⟨name, behind⟩ := x
    obtain ⟨o, ho, htells⟩ := named_tells h hcomma hclose hname hn
    exact ⟨_, Primary.endsWith_named hname ho, by simpa only [Expr.primary, hname] using htells⟩
  | none =>
    have htells := number_tells s
    by_cases hnumber : Descent.number s = .refused
    · obtain ⟨o, ho, hgroup⟩ := Parenthesised.settles h hclose s hn
      have hread : Decimal.read s = none := by simpa [hnumber, Outcome.Tells] using htells
      refine ⟨o, Primary.endsWith_group hname hnumber ho, ?_⟩
      simpa only [Expr.primary, hname, hread] using hgroup.mono (by simp) List.suffix_rfl
    · refine ⟨_, Primary.endsWith_number hname hnumber, ?_⟩
      cases hread : Decimal.read s with
      | some x => simpa [Expr.primary, hname, hread] using htells.mono (by simp) List.suffix_rfl
      | none =>
        have hgroup : Expr.parenthesised nested s = none := by
          refine Expr.parenthesised_eq_none fun c hc => ?_
          rintro rfl
          obtain ⟨r, rfl⟩ := List.head?_eq_some_iff.1 hc
          exact hnumber (number_parenthesis r)
        simpa [Expr.primary, hname, hread, hgroup] using htells.mono (by simp) List.suffix_rfl

theorem SignedPrimary.settles (h : Settles n (Expr.primary nested) cs (Primary E)) :
    Settles n (Expr.signedPrimary nested) cs (SignedPrimary E) := by
  intro s hn
  obtain ⟨o, ho, htells⟩ := h (splitSign s).2 ((suffix_splitSign s).length_le.trans_lt hn)
  exact ⟨_, SignedPrimary.endsWith ho, (htells.mono (List.Subset.refl _) (suffix_splitSign s)).map _⟩

/-! ## Levels -/

/-- The base and the powers behind it, before the sign of the base negates them. -/
theorem factor_eq_chain {s rest : List Char} {negative : Bool} {a : Expr}
    (h : Expr.signedPrimary nested s = some ((negative, a), rest)) : Expr.factor nested s =
      (some (chain Expr.power (Expr.signedPrimary nested) rest.length a rest)).map
        fun x => (Expr.negateIf negative x.1, x.2) := by
  simp only [Expr.factor, h, Option.map_some]
  rfl

theorem Factor.settles (h : Settles n (Expr.signedPrimary nested) cs (SignedPrimary E)) (hcs : '^' ∉ cs) :
    Settles n (Expr.factor nested) ('^' :: cs) (Factor E) := by
  have hsep : ∀ c ∈ cs, Expr.power c = none := fun c hc => if_neg (ne_of_mem_of_not_mem hc hcs)
  have hops : ∀ c, Expr.power c ≠ none → c ∈ '^' :: cs := by
    intro c hc
    by_cases heq : c = '^'
    · simp [heq]
    · exact absurd (if_neg heq) hc
  intro s hn
  obtain ⟨o, ho, htells⟩ := h s hn
  cases o with
  | taken x rest =>
    obtain ⟨hs, hrest⟩ := htells
    obtain ⟨o, hturns, hchain⟩ := Turns.settles h hsep hops (List.subset_cons_self _ _) x.2 rest
      (hrest.2.trans hn).le _ le_rfl
    refine ⟨_, Factor.endsWith_followed ho hturns, ?_⟩
    rw [factor_eq_chain hs]
    exact (hchain.tells hrest).map (Expr.negateIf x.1)
  | refused =>
    have hs : Expr.signedPrimary nested s = none := htells
    refine ⟨_, Factor.endsWith_stopped ho rfl, ?_⟩
    simp [Expr.factor, hs, Outcome.map, Outcome.Tells]
  | failed =>
    refine ⟨_, Factor.endsWith_stopped ho rfl, fun b r hb => ?_⟩
    cases hs : Expr.signedPrimary nested s with
    | none => simp [Expr.factor, hs] at hb
    | some y =>
      obtain ⟨signed, rest⟩ := y
      obtain ⟨hstop, hrest⟩ := htells signed rest hs
      rw [factor_eq_chain hs, Expr.chain_stops hsep hstop.2] at hb
      cases hb
      exact ⟨hstop.mono (List.subset_cons_self _ _), hrest⟩
  | stalled => exact absurd htells id

/-- A level of two operators. -/
theorem Repeated.settles_pair {x y : Char} {f g : Expr → Expr → Expr} {p : Parser Expr} {R : Runs Expr}
    (h : Settles n p cs R) (hx : x ∉ cs) (hy : y ∉ cs) :
    Settles n (Expr.chained (fun c => if c = x then some f else if c = y then some g else none) p) (x :: y :: cs)
      (Repeated (fun c => if c = x then some f else if c = y then some g else none) R R) := by
  refine Repeated.settles h h ?_ ?_ ?_
  · intro c hc
    simp only [if_neg (ne_of_mem_of_not_mem hc hx), if_neg (ne_of_mem_of_not_mem hc hy)]
  · intro c hc
    by_cases hcx : c = x
    · simp [hcx]
    · by_cases hcy : c = y
      · simp [hcy]
      · simp [hcx, hcy] at hc
  · exact fun c hc => List.mem_cons_of_mem _ (List.mem_cons_of_mem _ hc)

/-- What a parser can stop in front of at every level, where the rule of the level fails for good. -/
def primaryStops : List Char := ['(']

def factorStops : List Char := '^' :: primaryStops

def termStops : List Char := '*' :: '/' :: factorStops

def sumStops : List Char := '+' :: '-' :: termStops

def sequenceStops : List Char := ';' :: sumStops

section Levels

variable (h : Settles n nested sequenceStops E)

include h

theorem signedPrimary_settles : Settles (n + 1) (Expr.signedPrimary nested) primaryStops (SignedPrimary E) :=
  SignedPrimary.settles (Primary.settles h (by decide) (by decide))

theorem factor_settles : Settles (n + 1) (Expr.factor nested) factorStops (Factor E) :=
  Factor.settles (signedPrimary_settles h) (by decide)

theorem term_settles : Settles (n + 1) (Expr.term nested) termStops (Term E) :=
  (Repeated.settles_pair (factor_settles h) (by decide) (by decide)).imp Term.endsWith

theorem sum_settles : Settles (n + 1) (Expr.sum nested) sumStops (Sum E) :=
  (Repeated.settles_pair (term_settles h) (by decide) (by decide)).imp Sum.endsWith

theorem sequence_settles : Settles (n + 1) (Expr.chained semicolon (Expr.sum nested)) sequenceStops (Sequence E) := by
  refine (Repeated.settles (sum_settles h) (sum_settles h) ?_ ?_ (List.subset_cons_self _ _)).imp Sequence.endsWith
  · exact fun c hc => if_neg (ne_of_mem_of_not_mem hc (by decide))
  · intro c hc
    by_cases heq : c = ';'
    · exact heq ▸ List.mem_cons_self
    · exact absurd (if_neg heq) hc

end Levels

/-- Expressions inside of expressions are shorter than these, so the induction is on the length. -/
theorem Run.settles (n depth : Nat) (h : n ≤ depth) : Settles n (Expr.expr depth) sequenceStops Run := by
  induction n generalizing depth with
  | zero => exact fun s hs => absurd hs (Nat.not_lt_zero _)
  | succ n ih =>
    obtain ⟨depth, rfl⟩ : ∃ i, depth = i + 1 := ⟨depth - 1, by omega⟩
    exact (sequence_settles (ih depth (by omega))).imp Run.endsWith

theorem Runs.below_settles (n : Nat) : Settles n (Expr.expr n) sequenceStops (Runs.below n Run) := by
  intro s hn
  obtain ⟨o, ho, htells⟩ := Run.settles n n le_rfl s hn
  exact ⟨o, fun o' => ⟨fun h => (ho o').1 h.2, fun h => ⟨hn, (ho o').2 h⟩⟩, htells⟩

/-! ## Every text -/

/-- A rule comes to an end on the text, without a repetition that stalls, and so does the parser of it whose depth
    bounds the length of the text. -/
structure Ends {α : Type} (rule : Runs Expr → Runs α) (parse : Nat → Parser α) (s : List Char) :
    Prop where
  /-- The rule comes to an end, in one way. -/
  single : ∃ o, EndsWith (rule Run) s o ∧ o ≠ .stalled
  /-- Expressions inside are read from shorter texts only. -/
  shorter : ∀ o, rule (Runs.below s.length Run) s o ↔ rule Run s o
  /-- What is taken is a beginning of the text that is not empty. -/
  progress : ∀ {a rest}, rule Run s (.taken a rest) → IsRest rest s
  parse_taken : ∀ {a rest}, rule Run s (.taken a rest) → ∀ depth, s.length ≤ depth →
    parse depth s = some (a, rest)
  parse_refused : rule Run s .refused → ∀ depth, s.length ≤ depth → parse depth s = none
  parse_progress : ∀ depth, s.length ≤ depth → ∀ {a rest}, parse depth s = some (a, rest) →
    IsRest rest s

theorem Outcome.Tells.isRest {α : Type} {r : Option (α × List Char)} {s rest : List Char} {a : α} {o : Outcome α}
    (h : o.Tells r cs s) (hr : r = some (a, rest)) : IsRest rest s := by
  subst hr
  cases o with
  | taken b rest' =>
    cases h.1
    exact h.2
  | refused => cases h
  | failed => exact (h a rest rfl).2
  | stalled => exact absurd h id

/-- The shorter texts alone determine the outcome, as the rule settles there as well. -/
theorem Ends.of_settles {α : Type} {rule : Runs Expr → Runs α} {parse : Nat → Parser α}
    (hmono : ∀ {E E' : Runs Expr}, (∀ s o, E s o → E' s o) → ∀ {s o}, rule E s o → rule E' s o)
    (h : ∀ {n depth E}, Settles n (Expr.expr depth) sequenceStops E → Settles (n + 1) (parse depth) cs (rule E))
    (s : List Char) : Ends rule parse s := by
  have hdepth : ∀ depth, s.length ≤ depth →
      ∃ o, EndsWith (rule Run) s o ∧ o.Tells (parse depth s) cs s :=
    fun depth hle => h (Run.settles s.length depth hle) s (Nat.lt_succ_self _)
  obtain ⟨o, ho, htells⟩ := hdepth s.length le_rfl
  obtain ⟨o', ho', -⟩ := h (Runs.below_settles s.length) s (Nat.lt_succ_self _)
  have heq : o' = o := (ho o').1 (hmono (fun _ _ hs => hs.2) ((ho' o').2 rfl))
  refine ⟨⟨o, ho, ?_⟩, fun o'' => by rw [ho, ho', heq], ?_, ?_, ?_, ?_⟩
  · rintro rfl
    exact htells
  · intro a rest hs
    rw [← (ho _).1 hs] at htells
    exact htells.2
  · intro a rest hs depth hle
    obtain ⟨o₁, ho₁, htells₁⟩ := hdepth depth hle
    rw [← (ho₁ _).1 hs] at htells₁
    exact htells₁.1
  · intro hs depth hle
    obtain ⟨o₁, ho₁, htells₁⟩ := hdepth depth hle
    rw [← (ho₁ _).1 hs] at htells₁
    exact htells₁
  · intro depth hle a rest hs
    obtain ⟨o₁, -, htells₁⟩ := hdepth depth hle
    exact htells₁.isRest hs

/-- A text is read if all of it is taken, and is malformed if something is left, or if the rules refuse it or fail
    on it. -/
theorem read?_tells (s : List Char) :
    ∃ o, EndsWith Run s o ∧ o ≠ .stalled ∧ ∀ a, Expr.read? s = some a ↔ o = .taken a [] := by
  obtain ⟨o, ho, htells⟩ := Run.settles (s.length + 1) (s.length + 1) le_rfl s (Nat.lt_succ_self _)
  unfold Expr.read?
  cases o with
  | taken b rest =>
    refine ⟨_, ho, by simp, fun a => ?_⟩
    rw [htells.1]
    cases rest <;> simp
  | refused =>
    have hnone : Expr.expr (s.length + 1) s = none := htells
    exact ⟨_, ho, by simp, fun a => by simp [hnone]⟩
  | failed =>
    refine ⟨_, ho, by simp, fun a => ?_⟩
    split
    · next b hb => exact absurd rfl (htells _ _ hb).1.1
    · simp
  | stalled => exact absurd htells id

/-- Reading ends on every text, at every level of the grammar. Whatever is taken is at least one character, so no
    repetition stalls, and what stands inside of parentheses is shorter than the text. The texts that are read are
    those of which the run takes everything, and on each of the others it comes to an end as well. -/
theorem reading_ends (s : List Char) :
    Ends SignedPrimary (fun depth => Expr.signedPrimary (Expr.expr depth)) s ∧
    Ends Factor (fun depth => Expr.factor (Expr.expr depth)) s ∧
    Ends Term (fun depth => Expr.term (Expr.expr depth)) s ∧
    Ends Sum (fun depth => Expr.sum (Expr.expr depth)) s ∧
    Ends Sequence (fun depth => Expr.expr (depth + 1)) s ∧
    (∀ a, Expr.read? s = some a ↔ Run s (.taken a [])) ∧
    (Expr.read? s = none ↔ ∃ o, Run s o ∧ o ≠ .stalled ∧ ∀ a, o ≠ .taken a []) := by
  obtain ⟨o, ho, hends, hread⟩ := read?_tells s
  refine ⟨.of_settles SignedPrimary.mono signedPrimary_settles s, .of_settles Factor.mono factor_settles s,
    .of_settles Term.mono term_settles s, .of_settles Sum.mono sum_settles s,
    .of_settles Sequence.mono sequence_settles s, fun a => by rw [hread, ho, eq_comm], ?_⟩
  constructor
  · intro hnone
    refine ⟨o, (ho o).2 rfl, hends, fun a ha => ?_⟩
    have hsome := (hread a).2 ha
    rw [hnone] at hsome
    cases hsome
  · rintro ⟨o', ho', -, hne⟩
    obtain rfl := (ho o').1 ho'
    exact Option.eq_none_iff_forall_ne_some.2 fun a ha => hne a ((hread a).1 ha)

end Descent
end RateControl
