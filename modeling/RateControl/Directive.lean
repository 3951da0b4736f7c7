-- SUMMARY: Directives that force a quantizer or scale the bits over a range of pictures, and the reader of their list.
import RateControl.Numeral.Integer
import RateControl.Scalar

/-! # Directives

The user can direct the control over closed ranges of pictures. A directive is written as three numbers
`first,last,q`, and a list of directives has slashes between them. A positive `q` forces a quantizer, any
other scales the bits by `-q` percent. -/

namespace RateControl

/-- What a directive does. -/
inductive Action (σ : Type) where
  /-- Force this quantizer. -/
  | force (q : Int32)
  /-- Multiply the bits by this factor. -/
  | scale (factor : σ)

/-- An action over the pictures from `first` to `last`, both included. -/
structure Directive (σ : Type) where
  first : Int32
  last : Int32
  action : Action σ

namespace Directive

variable {σ : Type}

/-- Whether a picture lies in the range. Numbers from 2 ^ 63 on count as negative, 2 ^ 64 less. -/
def contains (d : Directive σ) (picture : Nat) : Bool :=
  let n := (Int64.ofNat picture).toInt
  d.first.toInt ≤ n ∧ n ≤ d.last.toInt

-- ---------------------------------------------------------------------------
-- Reading
-- ---------------------------------------------------------------------------

/-- Reads a text that is a whole number of the signed 32-bit range. -/
def readNumber? (s : List Char) : Option Int32 :=
  match Numeral.readInt32 s with
  | some (n, []) => some n
  | _            => none

variable [Scalar σ]

/-- The action that the number `q` stands for. -/
def actionOf (q : Int32) : Action σ :=
  if 0 < q then .force q else .scale (Scalar.ofInt (-q.toInt) / 100.0)

/-- Reads a directive. -/
def readItem? (s : List Char) : Option (Directive σ) :=
  match s.splitOn ',' with
  | [a, b, q] => return ⟨← readNumber? a, ← readNumber? b, actionOf (← readNumber? q)⟩
  | _         => none

/-- Reads a list of directives. -/
def readList? (s : String) : Option (List (Directive σ)) :=
  (s.toList.splitOn '/').mapM readItem?

end Directive
end RateControl
