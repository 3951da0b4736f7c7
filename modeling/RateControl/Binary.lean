-- SUMMARY: The binary32 and binary64 numbers as scalars; whole parts and changes of precision computed exactly on sign, mantissa and exponent.
import RateControl.Scalar

/-! # Binary numbers

`Float32` and `Float` as scalars. Sums, products, quotients, roots and comparisons are the core
operations. Whole parts, floors, ceilings and changes of precision are computed here, exactly, on
the sign, mantissa and exponent of the value. -/

namespace RateControl

open Float.Model

/-- A binary floating-point type, seen through the sign, mantissa and exponent of its values. -/
class Binary (α : Type) where
  unpack : α → UnpackedFloat
  pack : UnpackedFloat → α

instance : Binary Float32 where
  unpack x := x.toModel.unpack
  pack u := .ofModel (.pack u)

instance : Binary Float where
  unpack x := x.toModel.unpack
  pack u := .ofModel (.pack u)

namespace Binary

/-! ## Whole parts -/

/-- Whether the value has non-zero binary digits after the point. -/
def hasFraction : UnpackedFloat → Bool
  | .finite _ m e _ => e < 0 && m % Nat.pow 2 (-e).toNat != 0
  | _               => false

def isNegative : UnpackedFloat → Bool
  | .finite .negative ..  => true
  | .zero .negative       => true
  | .infinity .negative   => true
  | _                     => false

def clamp (lo hi n : Int) : Int := max lo (min hi n)

/-- Rounds towards zero. Infinities go to the ends of the range and NaN to 0. -/
def truncate (lo hi : Int) (u : UnpackedFloat) : Int :=
  clamp lo hi (u.toInt lo hi)

/-- Rounds up. Infinities go to the ends of the range and NaN to 0. -/
def ceiling (lo hi : Int) (u : UnpackedFloat) : Int :=
  clamp lo hi (if hasFraction u && !isNegative u then u.toInt lo hi + 1 else u.toInt lo hi)

/-- The whole number below a value that has a fraction. -/
def below (u : UnpackedFloat) : Int :=
  if isNegative u then u.toInt 0 0 - 1 else u.toInt 0 0

/-! ## Precision -/

/-- The value of the format nearest to `u`, ties going to the even mantissa. -/
def round (format : Format) : UnpackedFloat → UnpackedFloat
  | .finite s m e _ => UnpackedFloat.round format s m e
  | u               => u

instance : Precision Float32 Float where
  widen x  := pack (round .binary64 (unpack x))
  narrow x := pack (round .binary32 (unpack x))

end Binary

/-! ## Scalars -/

instance : Scalar Float32 where
  decLt         := inferInstance
  decLe         := inferInstance
  isNaN         := Float32.isNaN
  isFinite      := Float32.isFinite
  abs           := Float32.abs
  sqrt          := Float32.sqrt
  exp           := Float32.exp
  log           := Float32.log
  pow           := Float32.pow
  floor x       := if Binary.hasFraction (Binary.unpack x)
                   then Float32.ofInt (Binary.below (Binary.unpack x)) else x
  ofInt         := Float32.ofInt
  truncate lo hi x := Binary.truncate lo hi (Binary.unpack x)
  ceiling lo hi x  := Binary.ceiling lo hi (Binary.unpack x)

instance : Scalar Float where
  decLt         := inferInstance
  decLe         := inferInstance
  isNaN         := Float.isNaN
  isFinite      := Float.isFinite
  abs           := Float.abs
  sqrt          := Float.sqrt
  exp           := Float.exp
  log           := Float.log
  pow           := Float.pow
  floor x       := if Binary.hasFraction (Binary.unpack x)
                   then Float.ofInt (Binary.below (Binary.unpack x)) else x
  ofInt         := Float.ofInt
  truncate lo hi x := Binary.truncate lo hi (Binary.unpack x)
  ceiling lo hi x  := Binary.ceiling lo hi (Binary.unpack x)

end RateControl
