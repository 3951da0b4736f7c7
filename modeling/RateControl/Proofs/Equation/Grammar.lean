-- SUMMARY: The grammar of rate equations as relations between texts and their meanings.
import RateControl.Equation
import RateControl.Proofs.Numeral.Lexeme

/-! # Grammar of rate equations

The language of rate equations, said without a parser:

    expr    := sum (';' sum)*
    sum     := term (('+' | '-') term)*
    term    := factor (('*' | '/') factor)*
    factor  := sign? primary ('^' sign? primary)*
    primary := number | name | name '(' expr (',' expr)* ')' | '(' expr ')'

Each rule is a relation between the texts that it derives and what they mean. The relations know no
order of choice and no longest match. They take the expressions inside parentheses from a parameter
`E`, and `Sentence` ties the knot. -/

namespace RateControl.Grammar

open Numeral (Sign)

/-- The texts that a rule derives, each with what it means. -/
abbrev Phrases (α : Type) := List Char → α → Prop

/-- Operators of one rank, each with its operation. -/
abbrev Operators (α β : Type) := List (Char × (α → β → α))

/-- A text of `first (operator operand)*`, which means its operations from the left to the right. -/
inductive Chain {α β : Type} (operators : Operators α β) (first : Phrases α) (operand : Phrases β) :
    Phrases α
  | first {s v} : first s v → Chain operators first operand s v
  | more {s v c f t w} : Chain operators first operand s v → (c, f) ∈ operators → operand t w →
      Chain operators first operand (s ++ c :: t) (f v w)

/-! ## Operators -/

variable {σ δ : Type}

/-- What an expression means: a value for all values of the symbols and every picture. -/
abbrev Meaning (σ δ : Type) := (Symbol → δ) → Record σ → δ

namespace Meaning

def map (f : δ → δ) (v : Meaning σ δ) : Meaning σ δ := fun table r => f (v table r)

def map₂ (f : δ → δ → δ) (v w : Meaning σ δ) : Meaning σ δ := fun table r => f (v table r) (w table r)

end Meaning

/-- Operators on meanings. -/
abbrev Rank (σ δ : Type) := Operators (Meaning σ δ) (Meaning σ δ)

/-- Of a sequence only the last value counts. -/
def sequences : Rank σ δ := [(';', .map₂ fun _ y => y)]

variable [Scalar δ]

def sums : Rank σ δ := [('+', .map₂ (· + ·)), ('-', .map₂ (· - ·))]

def products : Rank σ δ := [('*', .map₂ (· * ·)), ('/', .map₂ (· / ·))]

def powers : Rank σ δ := [('^', .map₂ Scalar.pow)]

/-! ## Names -/

/-- The functions of one argument. -/
def unaryFunctions [Precision σ δ] : List (String × (Record σ → δ → δ)) :=
  [("sqrt", fun _ x => Scalar.sqrt x),
   ("exp", fun _ x => Scalar.exp x),
   ("log", fun _ x => Scalar.log x),
   ("abs", fun _ x => Scalar.abs x),
   ("bits2qp", fun r bits => r.textureScale / bits),
   ("qp2bits", fun r q => r.textureScale / q)]

/-- The functions of two arguments. -/
def binaryFunctions : List (String × (δ → δ → δ)) :=
  [("min", Scalar.min), ("max", Scalar.max), ("pow", Scalar.pow)]

/-! ## Rules -/

variable [Precision σ δ]

/-- A primary. Only directly behind a sign of the grammar can a number have a sign of its own, since
    anywhere else that sign is the sign of the grammar. -/
inductive Primary (E : Phrases (Meaning σ δ)) (behindSign : Bool) : Phrases (Meaning σ δ)
  | number {g negative u d} : Sign g negative → g = [] ∨ behindSign = true →
      Decimal.Unsigned negative u d → Primary E behindSign (g ++ u) fun _ _ => d.value
  | symbol (c : Symbol) : Primary E behindSign c.name.toList fun table _ => table c
  | unaryCall {name f s v} : (name, f) ∈ unaryFunctions → E s v →
      Primary E behindSign (name.toList ++ '(' :: (s ++ [')'])) fun table r => f r (v table r)
  | binaryCall {name f s v t w} : (name, f) ∈ binaryFunctions → E s v → E t w →
      Primary E behindSign (name.toList ++ '(' :: (s ++ ',' :: (t ++ [')']))) (.map₂ f v w)
  | group {s v} : E s v → Primary E behindSign ('(' :: (s ++ [')'])) v

/-- An optional sign, which negates the whole of what stands behind it. What stands `alone` and what
    stands `behind` a sign need not be the same. -/
inductive Signed (alone behind : Phrases (Meaning σ δ)) : Phrases (Meaning σ δ)
  | plain {s v} : alone s v → Signed alone behind s v
  | plus {s v} : behind s v → Signed alone behind ('+' :: s) v
  | minus {s v} : behind s v → Signed alone behind ('-' :: s) (.map (-·) v)

/-- An exponent. Its sign negates the exponent alone. -/
inductive Exponent (E : Phrases (Meaning σ δ)) : Phrases (Meaning σ δ)
  | intro {s v} : Signed (Primary E false) (Primary E true) s v → Exponent E s v

/-- A factor. Its sign negates the whole chain of powers. -/
inductive Factor (E : Phrases (Meaning σ δ)) : Phrases (Meaning σ δ)
  | intro {s v} : Signed (Chain powers (Primary E false) (Exponent E))
      (Chain powers (Primary E true) (Exponent E)) s v → Factor E s v

inductive Term (E : Phrases (Meaning σ δ)) : Phrases (Meaning σ δ)
  | intro {s v} : Chain products (Factor E) (Factor E) s v → Term E s v

inductive Sum (E : Phrases (Meaning σ δ)) : Phrases (Meaning σ δ)
  | intro {s v} : Chain sums (Term E) (Term E) s v → Sum E s v

/-- The sentences of the language. -/
inductive Sentence : Phrases (Meaning σ δ)
  | intro {s v} : Chain sequences (Sum Sentence) (Sum Sentence) s v → Sentence s v

end RateControl.Grammar
