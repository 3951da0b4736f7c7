-- SUMMARY: Running sums over the pictures of one type, from which the averages of the rate equation come.
import RateControl.Statistics.Record

/-! # Running sums

The averages that a rate equation can ask for are quotients of sums over the pictures so far. All sums
and the count start at 1, so that there is an average before the first picture. -/

namespace RateControl

/-- Sums over the pictures of a type. -/
structure Sums (δ : Type) where
  /-- Intra texture bits times quantizer. -/
  intra : δ
  /-- Predicted texture bits times quantizer. -/
  predicted : δ
  /-- Motion vector bits. -/
  motion : δ
  quantizer : δ
  count : Nat

namespace Sums

variable {σ δ : Type} [Scalar δ] [Precision σ δ]

/-- The sums before any picture. -/
def initial : Sums δ := ⟨1.0, 1.0, 1.0, 1.0, 1⟩

/-- The sums with one more picture. -/
def add (s : Sums δ) (r : Record σ) : Sums δ where
  intra := s.intra + Scalar.ofInt r.intraBits.toInt * widen r.quantizer
  predicted := s.predicted + Scalar.ofInt r.predictedBits.toInt * widen r.quantizer
  motion := s.motion + Scalar.ofInt r.motionBits.toInt
  quantizer := s.quantizer + widen r.quantizer
  count := s.count + 1

/-- The average of a sum over the pictures. -/
def average (s : Sums δ) (total : δ) : δ := total / Scalar.ofNat s.count

end Sums
end RateControl
