-- SUMMARY: What the formulas of the library ask of a number type (`Scalar`), and the passage between single and double precision (`Precision`).

/-! # Scalars

Every formula of the library is written once, over a type `σ` of single precision and a type `δ` of
double precision. It runs at the binary32 and binary64 numbers, and the same text can be read over
the real numbers, where both types are `ℝ`.

Comparisons are those of the number type: over binary numbers every comparison with NaN is false,
so `¬ a < b` is not `b ≤ a`, and the formulas keep the comparison that was meant. -/

namespace RateControl

/-- A type of numbers with the operations that rate control needs. -/
class Scalar (α : Type) extends
    Add α, Sub α, Mul α, Div α, Neg α, LT α, LE α, BEq α, OfScientific α where
  decLt : DecidableLT α
  decLe : DecidableLE α
  /-- Whether the value is no number. -/
  isNaN : α → Bool
  /-- Whether the value is a number and not infinite. -/
  isFinite : α → Bool
  abs : α → α
  sqrt : α → α
  exp : α → α
  log : α → α
  pow : α → α → α
  /-- The greatest whole number that is not above the value. -/
  floor : α → α
  /-- The value nearest to a whole number. -/
  ofInt : Int → α
  /-- The whole part, rounded towards zero and clamped to `lo … hi`; 0 when there is no number. -/
  truncate (lo hi : Int) : α → Int
  /-- The least whole number that is not below the value, clamped to `lo … hi`; 0 when there is no
      number. -/
  ceiling (lo hi : Int) : α → Int

attribute [reducible, instance] Scalar.decLt Scalar.decLe

/-- The passage between a single precision `σ` and a double precision `δ`. -/
class Precision (σ δ : Type) where
  /-- Every single value is a double value. -/
  widen : σ → δ
  /-- The single value nearest to a double value. -/
  narrow : δ → σ

export Precision (widen narrow)

namespace Scalar

variable {α : Type} [Scalar α]

/-- The value nearest to a natural number. -/
def ofNat (n : Nat) : α := ofInt n

/-- The greater of two values. A NaN gives way to the other value; of two equal values, such as the two
    zeros, it is the second. -/
def max (a b : α) : α := if isNaN a ∨ a ≤ b then b else a

/-- The lesser of two values. A NaN gives way to the other value; of two equal values, such as the two
    zeros, it is the second. -/
def min (a b : α) : α := if isNaN a ∨ b ≤ a then b else a

/-- The whole part, clamped to the signed 32-bit range. -/
def toInt32 (x : α) : Int := truncate (-2147483648) 2147483647 x

/-- The whole part, clamped to the signed 64-bit range. -/
def toInt64 (x : α) : Int := truncate (-9223372036854775808) 9223372036854775807 x

/-- The whole part, clamped to the unsigned 64-bit range. -/
def toNat64 (x : α) : Nat := (truncate 0 18446744073709551615 x).toNat

end Scalar
end RateControl
