-- SUMMARY: Reading rate equations from text without white space.
import RateControl.Equation.Syntax

/-! # Reading rate equations

The grammar, on text without white space:

    expr    := sum (';' sum)*
    sum     := term (('+' | '-') term)*
    term    := factor (('*' | '/') factor)*
    factor  := sign? primary ('^' sign? primary)*
    primary := name | name '(' expr (',' expr)* ')' | number | '(' expr ')'

All operators group to the left. A sign in front of a factor negates the whole chain of powers; a sign
behind `^` negates the exponent alone. A number may have a sign of its own, which is in use only behind
a sign of the grammar. A name takes an argument list where one follows, and must then be the name of a
function of as many arguments; without one it must be a symbol.

Every parser takes the expressions inside parentheses from the parser `nested`, and `expr` ties the knot
by the depth of the nesting. -/

namespace RateControl.Expr

/-- A parser takes something from the start of the text and yields what follows it. -/
abbrev Parser (α : Type) := List Char → Option (α × List Char)

/-- Takes separators with an operand behind each, as often as they come, and combines the operands from
    the left. `n` bounds how many are taken. -/
def chain {α β : Type} (separator : Char → Option (α → β → α)) (operand : Parser β) :
    Nat → α → List Char → α × List Char
  | 0, a, s          => (a, s)
  | _ + 1, a, []     => (a, [])
  | n + 1, a, c :: s =>
    match separator c with
    | none   => (a, c :: s)
    | some f =>
      match operand s with
      | none           => (a, c :: s)
      | some (b, rest) => chain separator operand n (f a b) rest

/-- An operand, and then a chain of separators and operands. -/
def chained (separator : Char → Option (Expr → Expr → Expr)) (operand : Parser Expr) : Parser Expr :=
  fun s => (operand s).map fun (a, rest) => chain separator operand rest.length a rest

def negateIf (negative : Bool) (a : Expr) : Expr := if negative then .neg a else a

-- ---------------------------------------------------------------------------
-- Names
-- ---------------------------------------------------------------------------

/-- Letters, digits and underscores continue a name. -/
def isNameChar (c : Char) : Bool := c.isAlphanum || c = '_'

/-- A name starts with a letter. -/
def identifier : Parser String
  | []     => none
  | c :: s =>
    if c.isAlpha then some (.ofList (c :: s.takeWhile isNameChar), s.dropWhile isNameChar) else none

/-- Takes an expression that ends in `)`. -/
def parenthesised {α : Type} (inner : Parser α) : Parser α
  | '(' :: s =>
    match inner s with
    | some (a, ')' :: rest) => some (a, rest)
    | _                     => none
  | _ => none

/-- Expressions with commas between them. -/
def arguments (nested : Parser Expr) : Parser (List Expr) := fun s =>
  (nested s).map fun (a, rest) =>
    chain (fun c => if c = ',' then some fun as a => as ++ [a] else none) nested rest.length [a] rest

/-- A symbol or a call. -/
def named (nested : Parser Expr) (name : String) : Parser Expr := fun s =>
  match parenthesised (arguments nested) s with
  | some (as, rest) => (call? name as).map (·, rest)
  | none            => (Symbol.ofName? name).map fun c => (.symbol c, s)

-- ---------------------------------------------------------------------------
-- Levels
-- ---------------------------------------------------------------------------

def primary (nested : Parser Expr) : Parser Expr := fun s =>
  match identifier s with
  | some (name, rest) => named nested name rest
  | none =>
    match Decimal.read s with
    | some (d, rest) => some (.number d, rest)
    | none           => parenthesised nested s

/-- A primary with an optional sign in front, and whether the sign was a minus. -/
def signedPrimary (nested : Parser Expr) : Parser (Bool × Expr) := fun s =>
  let (negative, s) := Numeral.splitSign s
  (primary nested s).map fun (a, rest) => ((negative, a), rest)

def factor (nested : Parser Expr) : Parser Expr := fun s =>
  (signedPrimary nested s).map fun ((negative, base), rest) =>
    let power (c : Char) : Option (Expr → Bool × Expr → Expr) :=
      if c = '^' then some fun a (negative, b) => .binary .pow a (negateIf negative b) else none
    let (a, rest) := chain power (signedPrimary nested) rest.length base rest
    (negateIf negative a, rest)

def term (nested : Parser Expr) : Parser Expr :=
  chained (fun c =>
    if c = '*' then some (.binary .mul) else if c = '/' then some (.binary .div) else none)
    (factor nested)

def sum (nested : Parser Expr) : Parser Expr :=
  chained (fun c =>
    if c = '+' then some (.binary .add) else if c = '-' then some (.binary .sub) else none)
    (term nested)

/-- An expression with at most `depth` expressions inside each other. -/
def expr : (depth : Nat) → Parser Expr
  | 0         => fun _ => none
  | depth + 1 => chained (fun c => if c = ';' then some .andThen else none) (sum (expr depth))

/-- Reads a text that is a whole expression. It cannot be nested deeper than it is long. -/
def read? (s : List Char) : Option Expr :=
  match expr (s.length + 1) s with
  | some (a, []) => some a
  | _            => none

end RateControl.Expr
