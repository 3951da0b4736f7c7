-- SUMMARY: The shortest decimal that reads back as a binary number, and the two texts made of it: plain, and with a fraction or an exponent always shown.
import RateControl.Binary
import RateControl.Numeral.Decimal

/-! # Shortest text

The text of a binary number has the fewest digits that read back as that number. With `n` digits only
the two neighbours of the value on the grid of that many digits come into question, so the search
goes through the grids from coarse to fine and tries both. Whether a candidate reads back is asked of
`Decimal.value` itself. Of two candidates the nearer is taken, and the upper one when both are as
near. -/

namespace RateControl

open Float.Model
open Numeral (natText)

namespace Shortest

/-- Whether the decimal reads back as the value `x`. -/
def readsBack {α : Type} [Scalar α] [Binary α] (x : α) (d : Decimal) : Bool :=
  Binary.unpack (d.unscaled.value : α) == Binary.unpack x

/-- The exact decimal of `m · 2 ^ e`. -/
def exact (m : Nat) (e : Int) : Decimal :=
  if 0 ≤ e then ⟨false, m * Nat.pow 2 e.toNat, 0⟩ else ⟨false, m * Nat.pow 5 (-e).toNat, e⟩

/-- Numerator and denominator of `m · 2 ^ e / 10 ^ p`. -/
def scaled (m : Nat) (e p : Int) : Nat × Nat :=
  (m * Nat.pow 2 e.toNat * Nat.pow 10 (-p).toNat, Nat.pow 2 (-e).toNat * Nat.pow 10 p.toNat)

/-- The least `k` near the estimate from the binary logarithm with `m · 2 ^ e < 10 ^ k`. -/
def magnitude (m : Nat) (e : Int) : Int :=
  let estimate := (m.log2 + e) * 30103 / 100000
  let isAbove (k : Int) : Bool := (scaled m e k).1 < (scaled m e k).2
  if isAbove (estimate - 1) then estimate - 1
  else if isAbove estimate then estimate
  else if isAbove (estimate + 1) then estimate + 1
  else estimate + 2

/-- The neighbour of `m · 2 ^ e` on the grid `10 ^ p` that passes, the nearer one if both do. -/
def onGrid (m : Nat) (e p : Int) (passes : Decimal → Bool) : Option Decimal :=
  let (num, den) := scaled m e p
  let lower : Decimal := ⟨false, num / den, p⟩
  let upper : Decimal := ⟨false, num / den + 1, p⟩
  match passes lower, passes upper with
  | true, true   => some (if 2 * num < (2 * (num / den) + 1) * den then lower else upper)
  | true, false  => some lower
  | false, true  => some upper
  | false, false => none

/-- The first hit on the grids of `n`, `n + 1`, … digits, `count` grids in all. -/
def search (m : Nat) (e k : Int) (passes : Decimal → Bool) : Nat → Nat → Option Decimal
  | _, 0         => none
  | n, count + 1 =>
    match onGrid m e (k - n) passes with
    | some d => some d
    | none   => search m e k passes (n + 1) count

/-- The shortest decimal of `m · 2 ^ e` that passes. Seventeen digits suffice for binary64; should
    none pass, the exact decimal stands in. -/
def decimal (m : Nat) (e : Int) (passes : Decimal → Bool) : Decimal :=
  ((search m e (magnitude m e) passes 1 17).getD (exact m e)).stripZeros 17

/-- The text of a binary number whose magnitude is laid out by `layout`. -/
def text {α : Type} [Scalar α] [Binary α] (layout : Decimal → List Char) (x : α) : List Char :=
  let sign (s : UnpackedFloat.Sign) : List Char := match s with
    | .negative => ['-']
    | .positive => []
  match Binary.unpack x with
  | .notANumber     => ['N', 'a', 'N']
  | .infinity s     => sign s ++ ['i', 'n', 'f']
  | .zero s         => sign s ++ layout ⟨false, 0, 0⟩
  | .finite s m e _ =>
    sign s ++ layout (decimal m e fun d => readsBack x { d with negative := s matches .negative })

/-! ## Layouts -/

/-- The text that shows a fraction or an exponent always: positional from 1e-4 up to below 1e16, with
    `.0` on whole numbers, and one digit before the point and an exponent elsewhere. -/
def marked (d : Decimal) : List Char :=
  let ds := natText d.digits
  let leading := d.exponent + ds.length - 1
  if d.digits = 0 ∨ (-4 ≤ leading ∧ leading < 16) then
    if 0 ≤ d.exponent then d.text ++ ['.', '0'] else d.text
  else
    (match ds with
      | [c]     => [c]
      | c :: cs => c :: '.' :: cs
      | []      => []) ++ 'e' :: Numeral.intText leading

end Shortest

/-- The shortest text of a binary number, positional and without `.0` on whole numbers. -/
def plainText {α : Type} [Scalar α] [Binary α] (x : α) : String :=
  .ofList (Shortest.text Decimal.text x)

/-- The shortest text of a binary number that shows it is no integer: with `.0` or an exponent. -/
def markedText {α : Type} [Scalar α] [Binary α] (x : α) : String :=
  .ofList (Shortest.text Shortest.marked x)

end RateControl
