-- SUMMARY: Decimal numerals of whole numbers: the digits of a number, and reading a numeral that must fit a range.

/-! # Whole numbers

A numeral is an optional sign and a run of decimal digits. Reading takes the longest run, and the
value must fit the range of the field that is being read: a numeral that is too great is no numeral
of that field. -/

namespace RateControl.Numeral

/-- The longest run of digits at the start of the text, and what follows it. -/
def spanDigits (s : List Char) : List Char × List Char :=
  (s.takeWhile Char.isDigit, s.dropWhile Char.isDigit)

theorem spanDigits_append (s : List Char) : (spanDigits s).1 ++ (spanDigits s).2 = s :=
  List.takeWhile_append_dropWhile

/-- The number that a run of digits stands for. -/
def ofDigits (cs : List Char) : Nat :=
  cs.foldl (fun n c => 10 * n + (c.toNat - '0'.toNat)) 0

/-- An optional sign: whether it was a minus, and what follows it. -/
def splitSign : List Char → Bool × List Char
  | '-' :: s => (true, s)
  | '+' :: s => (false, s)
  | s        => (false, s)

/-- Reads a run of digits whose value is at most `hi`. -/
def readNat (hi : Nat) (s : List Char) : Option (Nat × List Char) :=
  match spanDigits s with
  | ([], _)    => none
  | (ds, rest) => if ofDigits ds ≤ hi then some (ofDigits ds, rest) else none

/-- Reads an optional sign and a run of digits whose value lies in `lo … hi`. -/
def readInt (lo hi : Int) (s : List Char) : Option (Int × List Char) :=
  let (negative, s) := splitSign s
  match spanDigits s with
  | ([], _)    => none
  | (ds, rest) =>
    let n : Int := if negative then -(ofDigits ds : Int) else ofDigits ds
    if lo ≤ n ∧ n ≤ hi then some (n, rest) else none

/-- Reads a number of the signed 32-bit range. -/
def readInt32 (s : List Char) : Option (Int32 × List Char) :=
  (readInt (-2147483648) 2147483647 s).map fun (n, rest) => (.ofInt n, rest)

/-- Reads a number of the signed 64-bit range. -/
def readInt64 (s : List Char) : Option (Int64 × List Char) :=
  (readInt (-9223372036854775808) 9223372036854775807 s).map fun (n, rest) => (.ofInt n, rest)

/-- Reads a number of the unsigned 64-bit range; it takes no sign. -/
def readNat64 (s : List Char) : Option (Nat × List Char) :=
  readNat 18446744073709551615 s

/-- The digits of a natural number. -/
def natText (n : Nat) : List Char := Nat.toDigits 10 n

/-- The numeral of a whole number, with a minus sign where it is negative. -/
def intText : Int → List Char
  | .ofNat n   => natText n
  | .negSucc n => '-' :: natText (n + 1)

end RateControl.Numeral
