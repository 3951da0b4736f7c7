-- SUMMARY: Recursive descent over rate equations as a relation between texts and outcomes, in which nothing bounds repetitions or nesting.
import Mathlib.Data.List.Infix
import RateControl.Proofs.Equation.Language

/-! # Recursive descent

How an equation is read, said without any bound: a run of a rule on a text has an outcome if the rule comes to
an end there, and a text on which a repetition or the nesting went on for ever would have none.

An outcome knows more than a parser yields. A rule refuses a text that does not start with what it reads, and
then another alternative may be tried. It fails for good on an unknown name, a wrong number of arguments, or a
number whose exponent has no digits, and nothing around it tries anything else. And a repetition that comes
round without having taken anything stalls, which would be the outcome of everything around it, too. -/

namespace RateControl.Descent

open Numeral (splitSign)

-- ---------------------------------------------------------------------------
-- Outcomes
-- ---------------------------------------------------------------------------

inductive Outcome (α : Type) where
  | taken (a : α) (rest : List Char)
  | refused
  | failed
  | stalled

namespace Outcome

variable {α β : Type}

def map (f : α → β) : Outcome α → Outcome β
  | taken a rest => taken (f a) rest
  | refused      => refused
  | failed       => failed
  | stalled      => stalled

def isTaken : Outcome α → Bool
  | taken _ _ => true
  | _         => false

/-- What was taken has to stand for something. -/
def orFailed (a : Option α) (rest : List Char) : Outcome α :=
  match a with
  | some a => taken a rest
  | none   => failed

/-- What a repetition makes of the outcome of an item that was not taken: it ends in front of an item that was
    refused. -/
def before (a : α) (s : List Char) : Outcome β → Outcome α
  | refused => taken a s
  | failed  => failed
  | _       => stalled

/-- What parentheses make of the outcome inside of them. -/
def closed : Outcome α → Outcome α
  | taken a (')' :: rest) => taken a rest
  | taken _ _             => refused
  | o                     => o

/-- What a name makes of the outcome of reading arguments `behind` it. Where there are none the name stands
    alone, whatever was tried as arguments. -/
def named (name : String) (behind : List Char) : Outcome (List Expr) → Outcome Expr
  | taken as rest => orFailed (Expr.call? name as) rest
  | refused       => orFailed ((Symbol.ofName? name).map .symbol) behind
  | failed        => failed
  | stalled       => stalled

end Outcome

/-- The runs of a rule: the texts on which it comes to an end, with their outcomes. -/
abbrev Runs (α : Type) := List Char → Outcome α → Prop

-- ---------------------------------------------------------------------------
-- Repetitions and parentheses
-- ---------------------------------------------------------------------------

section Combinators

variable {α β : Type}

/-- The turns of a repetition: a separator and an operand behind it, as often as they come. -/
inductive Turns (separator : Char → Option (α → β → α)) (operand : Runs β) : α → Runs α
  | done {a s} : (∀ c ∈ s.head?, separator c = none) → Turns separator operand a s (.taken a s)
  | stopped {a c s f o} : separator c = some f → operand s o → o.isTaken = false →
      Turns separator operand a (c :: s) (o.before a (c :: s))
  | stalled {a c s f b rest} : separator c = some f → operand s (.taken b rest) →
      ¬ rest.length < (c :: s).length → Turns separator operand a (c :: s) .stalled
  | again {a c s f b rest o} : separator c = some f → operand s (.taken b rest) →
      rest.length < (c :: s).length → Turns separator operand (f a b) rest o →
      Turns separator operand a (c :: s) o

/-- A first operand, and then turns of a repetition. -/
inductive Repeated (separator : Char → Option (α → β → α)) (first : Runs α) (operand : Runs β) : Runs α
  | stopped {s o} : first s o → o.isTaken = false → Repeated separator first operand s o
  | followed {s a rest o} : first s (.taken a rest) → Turns separator operand a rest o →
      Repeated separator first operand s o

inductive Mapped (f : α → β) (run : Runs α) : Runs β
  | intro {s o} : run s o → Mapped f run s (o.map f)

inductive Parenthesised (inner : Runs α) : Runs α
  | unopened {s} : s.head? ≠ some '(' → Parenthesised inner s .refused
  | opened {s o} : inner s o → Parenthesised inner ('(' :: s) o.closed

end Combinators

-- ---------------------------------------------------------------------------
-- Rules
-- ---------------------------------------------------------------------------

/-- A number. Behind its mantissa the letter of an exponent must be followed by digits. -/
def number (s : List Char) : Outcome Expr :=
  match Decimal.readMantissa (splitSign s).2 with
  | none                     => .refused
  | some ((ds, places), rest) =>
    match Decimal.readExponent rest with
    | none                  => .failed
    | some (exponent, rest) =>
      .taken (.number ⟨(splitSign s).1, Numeral.ofDigits ds, exponent - places⟩) rest

def comma (c : Char) : Option (List Expr → Expr → List Expr) :=
  if c = ',' then some fun as a => as ++ [a] else none

def product (c : Char) : Option (Expr → Expr → Expr) :=
  if c = '*' then some (.binary .mul) else if c = '/' then some (.binary .div) else none

def addition (c : Char) : Option (Expr → Expr → Expr) :=
  if c = '+' then some (.binary .add) else if c = '-' then some (.binary .sub) else none

def semicolon (c : Char) : Option (Expr → Expr → Expr) :=
  if c = ';' then some .andThen else none

inductive Arguments (E : Runs Expr) : Runs (List Expr)
  | intro {s o} : Repeated comma (Mapped (fun a => [a]) E) E s o → Arguments E s o

/-- A name with or without arguments, a number, or an expression in parentheses. -/
inductive Primary (E : Runs Expr) : Runs Expr
  | named {s name behind o} : Expr.identifier s = some (name, behind) → Parenthesised (Arguments E) behind o →
      Primary E s (o.named name behind)
  | number {s o} : Expr.identifier s = none → number s = o → o ≠ .refused → Primary E s o
  | group {s o} : Expr.identifier s = none → number s = .refused → Parenthesised E s o → Primary E s o

/-- A primary with an optional sign in front. -/
inductive SignedPrimary (E : Runs Expr) : Runs (Bool × Expr)
  | intro {s o} : Primary E (splitSign s).2 o → SignedPrimary E s (o.map ((splitSign s).1, ·))

inductive Factor (E : Runs Expr) : Runs Expr
  | stopped {s o} : SignedPrimary E s o → o.isTaken = false → Factor E s (o.map Prod.snd)
  | followed {s negative a rest o} : SignedPrimary E s (.taken (negative, a) rest) →
      Turns Expr.power (SignedPrimary E) a rest o → Factor E s (o.map (Expr.negateIf negative))

inductive Term (E : Runs Expr) : Runs Expr
  | intro {s o} : Repeated product (Factor E) (Factor E) s o → Term E s o

inductive Sum (E : Runs Expr) : Runs Expr
  | intro {s o} : Repeated addition (Term E) (Term E) s o → Sum E s o

inductive Sequence (E : Runs Expr) : Runs Expr
  | intro {s o} : Repeated semicolon (Sum E) (Sum E) s o → Sequence E s o

/-- The runs of the whole grammar, which reads expressions inside of expressions. -/
inductive Run : Runs Expr
  | intro {s o} : Sequence Run s o → Run s o

/-- The runs on texts that are shorter than `n`. -/
def Runs.below {α : Type} (n : Nat) (R : Runs α) : Runs α := fun s o => s.length < n ∧ R s o

-- ---------------------------------------------------------------------------
-- More runs inside, more runs
-- ---------------------------------------------------------------------------

section Mono

variable {α β : Type} {separator : Char → Option (α → β → α)} {operand operand' : Runs β}
  {first first' : Runs α}

theorem Turns.mono (h : ∀ s o, operand s o → operand' s o) {a : α} {s : List Char} {o : Outcome α}
    (hs : Turns separator operand a s o) : Turns separator operand' a s o := by
  induction hs with
  | done hnone => exact .done hnone
  | stopped hc hs ho => exact .stopped hc (h _ _ hs) ho
  | stalled hc hs hnot => exact .stalled hc (h _ _ hs) hnot
  | again hc hs hlt _ ih => exact .again hc (h _ _ hs) hlt ih

theorem Repeated.mono (hfirst : ∀ s o, first s o → first' s o) (h : ∀ s o, operand s o → operand' s o)
    {s : List Char} {o : Outcome α} (hs : Repeated separator first operand s o) :
    Repeated separator first' operand' s o := by
  cases hs with
  | stopped hs ho => exact .stopped (hfirst _ _ hs) ho
  | followed hs hmore => exact .followed (hfirst _ _ hs) (hmore.mono h)

theorem Mapped.mono {f : α → β} (h : ∀ s o, first s o → first' s o) {s : List Char} {o : Outcome β}
    (hs : Mapped f first s o) : Mapped f first' s o := by
  cases hs with
  | intro hs => exact .intro (h _ _ hs)

theorem Parenthesised.mono (h : ∀ s o, first s o → first' s o) {s : List Char} {o : Outcome α}
    (hs : Parenthesised first s o) : Parenthesised first' s o := by
  cases hs with
  | unopened hs => exact .unopened hs
  | opened hs => exact .opened (h _ _ hs)

variable {E E' : Runs Expr}

theorem Arguments.mono (h : ∀ s o, E s o → E' s o) {s : List Char} {o : Outcome (List Expr)}
    (hs : Arguments E s o) : Arguments E' s o := by
  cases hs with
  | intro hs => exact .intro (hs.mono (fun _ _ => Mapped.mono h) h)

theorem Primary.mono (h : ∀ s o, E s o → E' s o) {s : List Char} {o : Outcome Expr}
    (hs : Primary E s o) : Primary E' s o := by
  cases hs with
  | named hname hs => exact .named hname (hs.mono fun _ _ => Arguments.mono h)
  | number hname hs ho => exact .number hname hs ho
  | group hname hnumber hs => exact .group hname hnumber (hs.mono h)

theorem SignedPrimary.mono (h : ∀ s o, E s o → E' s o) {s : List Char} {o : Outcome (Bool × Expr)}
    (hs : SignedPrimary E s o) : SignedPrimary E' s o := by
  cases hs with
  | intro hs => exact .intro (hs.mono h)

theorem Factor.mono (h : ∀ s o, E s o → E' s o) {s : List Char} {o : Outcome Expr}
    (hs : Factor E s o) : Factor E' s o := by
  cases hs with
  | stopped hs ho => exact .stopped (hs.mono h) ho
  | followed hs hmore => exact .followed (hs.mono h) (hmore.mono fun _ _ => SignedPrimary.mono h)

theorem Term.mono (h : ∀ s o, E s o → E' s o) {s : List Char} {o : Outcome Expr} (hs : Term E s o) :
    Term E' s o := by
  cases hs with
  | intro hs => exact .intro (hs.mono (fun _ _ => Factor.mono h) fun _ _ => Factor.mono h)

theorem Sum.mono (h : ∀ s o, E s o → E' s o) {s : List Char} {o : Outcome Expr} (hs : Sum E s o) :
    Sum E' s o := by
  cases hs with
  | intro hs => exact .intro (hs.mono (fun _ _ => Term.mono h) fun _ _ => Term.mono h)

theorem Sequence.mono (h : ∀ s o, E s o → E' s o) {s : List Char} {o : Outcome Expr}
    (hs : Sequence E s o) : Sequence E' s o := by
  cases hs with
  | intro hs => exact .intro (hs.mono (fun _ _ => Sum.mono h) fun _ _ => Sum.mono h)

end Mono

-- ---------------------------------------------------------------------------
-- Single outcomes
-- ---------------------------------------------------------------------------

section Ends

variable {α β : Type}

/-- The run on the text comes to an end, and has no other outcome. -/
def EndsWith (R : Runs α) (s : List Char) (o : Outcome α) : Prop := ∀ o', R s o' ↔ o' = o

variable {separator : Char → Option (α → β → α)} {operand : Runs β} {first inner : Runs α} {a : α}
  {b : β} {c : Char} {s rest : List Char} {g : α → β → α} {o : Outcome α} {o₁ : Outcome β}

theorem Turns.endsWith_done (h : ∀ c ∈ s.head?, separator c = none) :
    EndsWith (Turns separator operand a) s (.taken a s) := by
  intro o'
  constructor
  · intro ho'
    cases ho' with
    | done => rfl
    | _ hc => simp [hc] at h
  · rintro rfl
    exact .done h

theorem Turns.endsWith_stopped (hc : separator c = some g) (h : EndsWith operand s o₁) (ho : o₁.isTaken = false) :
    EndsWith (Turns separator operand a) (c :: s) (o₁.before a (c :: s)) := by
  intro o'
  constructor
  · intro ho'
    cases ho' with
    | done hnone => simp [hc] at hnone
    | stopped _ hs => rw [(h _).1 hs]
    | _ _ hs => cases (h _).1 hs; cases ho
  · rintro rfl
    exact .stopped hc ((h _).2 rfl) ho

theorem Turns.endsWith_again (hc : separator c = some g) (h : EndsWith operand s (.taken b rest))
    (hlt : rest.length < (c :: s).length) (hrest : EndsWith (Turns separator operand (g a b)) rest o) :
    EndsWith (Turns separator operand a) (c :: s) o := by
  intro o'
  constructor
  · intro ho'
    cases ho' with
    | done hnone => simp [hc] at hnone
    | stopped _ hs ho => cases (h _).1 hs; cases ho
    | stalled _ hs hnot => cases (h _).1 hs; exact absurd hlt hnot
    | again hc' hs _ hmore =>
      cases (h _).1 hs
      cases hc.symm.trans hc'
      exact (hrest _).1 hmore
  · rintro rfl
    exact .again hc ((h _).2 rfl) hlt ((hrest _).2 rfl)

theorem Repeated.endsWith_stopped (h : EndsWith first s o) (ho : o.isTaken = false) :
    EndsWith (Repeated separator first operand) s o := by
  intro o'
  constructor
  · rintro (⟨hs, -⟩ | ⟨hs, -⟩)
    · exact (h _).1 hs
    · cases (h _).1 hs
      cases ho
  · rintro rfl
    exact .stopped ((h _).2 rfl) ho

theorem Repeated.endsWith_followed (h : EndsWith first s (.taken a rest))
    (hrest : EndsWith (Turns separator operand a) rest o) : EndsWith (Repeated separator first operand) s o := by
  intro o'
  constructor
  · rintro (⟨hs, ho⟩ | ⟨hs, hmore⟩)
    · cases (h _).1 hs
      cases ho
    · cases (h _).1 hs
      exact (hrest _).1 hmore
  · rintro rfl
    exact .followed ((h _).2 rfl) ((hrest _).2 rfl)

theorem Mapped.endsWith {f : α → β} (h : EndsWith first s o) : EndsWith (Mapped f first) s (o.map f) := by
  intro o'
  constructor
  · rintro ⟨hs⟩
    rw [(h _).1 hs]
  · rintro rfl
    exact .intro ((h _).2 rfl)

theorem Parenthesised.endsWith_unopened (h : s.head? ≠ some '(') : EndsWith (Parenthesised inner) s .refused := by
  intro o'
  constructor
  · rintro (_ | _)
    · rfl
    · exact absurd rfl h
  · rintro rfl
    exact .unopened h

theorem Parenthesised.endsWith_opened (h : EndsWith inner s o) :
    EndsWith (Parenthesised inner) ('(' :: s) o.closed := by
  intro o'
  constructor
  · rintro (hs | hs)
    · exact absurd rfl hs
    · rw [(h _).1 hs]
  · rintro rfl
    exact .opened ((h _).2 rfl)

end Ends

section Rules

variable {E : Runs Expr} {s behind rest : List Char} {name : String} {o : Outcome Expr}

theorem Arguments.endsWith {o : Outcome (List Expr)} (h : EndsWith (Repeated comma (Mapped (fun a => [a]) E) E) s o) :
    EndsWith (Arguments E) s o := fun o' => ⟨fun ⟨hs⟩ => (h o').1 hs, fun ho => .intro ((h o').2 ho)⟩

theorem Primary.endsWith_named {o : Outcome (List Expr)} (hname : Expr.identifier s = some (name, behind))
    (h : EndsWith (Parenthesised (Arguments E)) behind o) : EndsWith (Primary E) s (o.named name behind) := by
  intro o'
  constructor
  · rintro (⟨hname', hs⟩ | ⟨hnone, -⟩ | ⟨hnone, -⟩)
    · cases hname.symm.trans hname'
      rw [(h _).1 hs]
    all_goals cases hname.symm.trans hnone
  · rintro rfl
    exact .named hname ((h _).2 rfl)

theorem Primary.endsWith_number (hname : Expr.identifier s = none)
    (h : Descent.number s ≠ Outcome.refused) : EndsWith (Primary E) s (Descent.number s) := by
  intro o'
  constructor
  · rintro (⟨hname', -⟩ | ⟨-, hs, -⟩ | ⟨-, hs, -⟩)
    · cases hname.symm.trans hname'
    · exact hs.symm
    · exact absurd hs h
  · rintro rfl
    exact .number hname rfl h

theorem Primary.endsWith_group (hname : Expr.identifier s = none) (hnumber : Descent.number s = Outcome.refused)
    (h : EndsWith (Parenthesised E) s o) : EndsWith (Primary E) s o := by
  intro o'
  constructor
  · rintro (⟨hname', -⟩ | ⟨-, hs, hne⟩ | ⟨-, -, hs⟩)
    · cases hname.symm.trans hname'
    · exact absurd (hs.symm.trans hnumber) hne
    · exact (h o').1 hs
  · rintro rfl
    exact .group hname hnumber ((h _).2 rfl)

theorem SignedPrimary.endsWith (h : EndsWith (Primary E) (splitSign s).2 o) :
    EndsWith (SignedPrimary E) s (o.map ((splitSign s).1, ·)) := by
  intro o'
  constructor
  · rintro ⟨hs⟩
    rw [(h _).1 hs]
  · rintro rfl
    exact .intro ((h _).2 rfl)

theorem Factor.endsWith_stopped {o : Outcome (Bool × Expr)} (h : EndsWith (SignedPrimary E) s o)
    (ho : o.isTaken = false) : EndsWith (Factor E) s (o.map Prod.snd) := by
  intro o'
  constructor
  · rintro (⟨hs, -⟩ | ⟨hs, -⟩)
    · rw [(h _).1 hs]
    · cases (h _).1 hs
      cases ho
  · rintro rfl
    exact .stopped ((h _).2 rfl) ho

theorem Factor.endsWith_followed {negative : Bool} {a : Expr}
    (h : EndsWith (SignedPrimary E) s (.taken (negative, a) rest))
    (hrest : EndsWith (Turns Expr.power (SignedPrimary E) a) rest o) :
    EndsWith (Factor E) s (o.map (Expr.negateIf negative)) := by
  intro o'
  constructor
  · rintro (⟨hs, ho⟩ | ⟨hs, hmore⟩)
    · cases (h _).1 hs
      cases ho
    · cases (h _).1 hs
      rw [(hrest _).1 hmore]
  · rintro rfl
    exact .followed ((h _).2 rfl) ((hrest _).2 rfl)

theorem Term.endsWith (h : EndsWith (Repeated product (Factor E) (Factor E)) s o) : EndsWith (Term E) s o :=
  fun o' => ⟨fun ⟨hs⟩ => (h o').1 hs, fun ho => .intro ((h o').2 ho)⟩

theorem Sum.endsWith (h : EndsWith (Repeated addition (Term E) (Term E)) s o) : EndsWith (Sum E) s o :=
  fun o' => ⟨fun ⟨hs⟩ => (h o').1 hs, fun ho => .intro ((h o').2 ho)⟩

theorem Sequence.endsWith (h : EndsWith (Repeated semicolon (Sum E) (Sum E)) s o) : EndsWith (Sequence E) s o :=
  fun o' => ⟨fun ⟨hs⟩ => (h o').1 hs, fun ho => .intro ((h o').2 ho)⟩

theorem Run.endsWith (h : EndsWith (Sequence Run) s o) : EndsWith Run s o :=
  fun o' => ⟨fun ⟨hs⟩ => (h o').1 hs, fun ho => .intro ((h o').2 ho)⟩

end Rules

end RateControl.Descent
