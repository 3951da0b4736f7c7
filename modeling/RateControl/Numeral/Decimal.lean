-- SUMMARY: Decimal numerals of fractions: the value of digits with an exponent, reading them from text, and writing them out positionally.
import RateControl.Scalar
import RateControl.Numeral.Integer

/-! # Decimal fractions

A decimal is a run of digits times a power of ten. Its value in a scalar type is the nearest value of
that type, rounded once. -/

namespace RateControl

/-- The number `± digits · 10 ^ exponent`. -/
structure Decimal where
  negative : Bool
  digits : Nat
  exponent : Int
deriving DecidableEq

namespace Decimal

/-- The value of the scalar type nearest to the decimal. -/
def value {α : Type} [Scalar α] (d : Decimal) : α :=
  let magnitude : α := OfScientific.ofScientific d.digits (d.exponent < 0) d.exponent.natAbs
  if d.negative then -magnitude else magnitude

/-! ## Reading -/

open Numeral

/-- Digits with an optional point and more digits, or a point and digits. Yields all the digits and
    how many of them stand after the point. -/
def readMantissa (s : List Char) : Option ((List Char × Nat) × List Char) :=
  match spanDigits s with
  | ([], '.' :: s) =>
    match spanDigits s with
    | ([], _)    => none
    | (fs, rest) => some ((fs, fs.length), rest)
  | ([], _)        => none
  | (ds, '.' :: s) =>
    let (fs, rest) := spanDigits s
    some ((ds ++ fs, fs.length), rest)
  | (ds, rest)     => some ((ds, 0), rest)

/-- An optional exponent: `e` or `E`, an optional sign, digits. The letter must be followed by
    digits. -/
def readExponent : List Char → Option (Int × List Char)
  | [] => some (0, [])
  | c :: s =>
    if c = 'e' ∨ c = 'E' then
      let (negative, s) := splitSign s
      match spanDigits s with
      | ([], _)    => none
      | (ds, rest) => some (if negative then -(ofDigits ds : Int) else ofDigits ds, rest)
    else some (0, c :: s)

/-- Reads an optional sign, a mantissa and an optional exponent. -/
def read (s : List Char) : Option (Decimal × List Char) := do
  let (negative, s) := splitSign s
  let ((ds, places), s) ← readMantissa s
  let (exponent, s) ← readExponent s
  return ({ negative, digits := ofDigits ds, exponent := exponent - places }, s)

/-! ## Writing -/

/-- Digits and exponent written out without an exponent: zeros behind the digits, or a point between
    or before them. -/
def positional (ds : List Char) (exponent : Int) : List Char :=
  if 0 ≤ exponent then ds ++ List.replicate exponent.toNat '0'
  else
    let places := (-exponent).toNat
    if places < ds.length then
      ds.take (ds.length - places) ++ '.' :: ds.drop (ds.length - places)
    else
      '0' :: '.' :: (List.replicate (places - ds.length) '0' ++ ds)

/-- The decimal as positional text, which is the form that `read` takes back. -/
def text (d : Decimal) : List Char :=
  let ds := positional (natText d.digits) d.exponent
  if d.negative then '-' :: ds else ds

/-- The same number with the digits that its positional text has: a power of ten that is a whole
    number goes into the digits. -/
def unscaled (d : Decimal) : Decimal :=
  if 0 ≤ d.exponent then
    { d with digits := d.digits * Nat.pow 10 d.exponent.toNat, exponent := 0 }
  else d

/-- The same number without zeros at the end of its digits; `n` bounds how many are taken off. -/
def stripZeros : Nat → Decimal → Decimal
  | 0, d     => d
  | n + 1, d =>
    if d.digits % 10 = 0 ∧ d.digits ≠ 0 then
      stripZeros n { d with digits := d.digits / 10, exponent := d.exponent + 1 }
    else d

end Decimal
end RateControl
