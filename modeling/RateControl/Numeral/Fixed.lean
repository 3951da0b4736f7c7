-- SUMMARY: The text of a binary number with a fixed number of places, its exact value rounded half to even.
import RateControl.Binary
import RateControl.Numeral.Decimal

/-! # Fixed places

The exact value of a binary number is rounded to a whole number of units in the last place, a half
going to the even neighbour, and written with all its places. The sign is that of the number, also
where every digit shown is 0. -/

namespace RateControl

open Float.Model

namespace Fixed

/-- The quotient rounded to a whole number, a half going to the even neighbour. -/
def roundDiv (num den : Nat) : Nat :=
  let q := num / den
  if 2 * (num % den) < den then q
  else if den < 2 * (num % den) then q + 1
  else q + q % 2

/-- `m · 2 ^ e` in units of `10 ^ -places`. -/
def units (places m : Nat) (e : Int) : Nat :=
  roundDiv (m * Nat.pow 2 e.toNat * Nat.pow 10 places) (Nat.pow 2 (-e).toNat)

/-- A number of units as text: digits enough for the places and one before the point. -/
def layout (places n : Nat) : List Char :=
  let ds := Numeral.natText n
  let ds := List.replicate (places + 1 - ds.length) '0' ++ ds
  if places = 0 then ds
  else ds.take (ds.length - places) ++ '.' :: ds.drop (ds.length - places)

end Fixed

/-- The text of a binary number with exactly `places` places. -/
def fixedText {α : Type} [Binary α] (places : Nat) (x : α) : String :=
  let sign (s : UnpackedFloat.Sign) : List Char := match s with
    | .negative => ['-']
    | .positive => []
  .ofList <| match Binary.unpack x with
  | .notANumber     => ['N', 'a', 'N']
  | .infinity s     => sign s ++ ['i', 'n', 'f']
  | .zero s         => sign s ++ Fixed.layout places 0
  | .finite s m e _ => sign s ++ Fixed.layout places (Fixed.units places m e)

end RateControl
