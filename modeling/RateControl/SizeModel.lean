-- SUMMARY: The model that predicts the size of a picture from its complexity and its quantizer.
import RateControl.Settings

/-! # Size model

The size of a picture is taken to be a coefficient times its complexity over its quantizer. The
coefficient is an average of the coefficients seen so far, in which older ones weigh less. -/

namespace RateControl

/-- A decaying average of coefficients, as a weighted sum and the sum of the weights. -/
structure SizeModel (δ : Type) where
  coefficient : δ
  count : δ
  /-- The weight that the past keeps at each update. -/
  decay : δ

namespace SizeModel

variable {δ : Type} [Scalar δ]

/-- The model before any picture. -/
def standard : SizeModel δ where
  coefficient := 7.0 * Scalar.ofInt lambdaPerQP
  count := 1.0
  decay := 0.4

/-- The size in bits of a picture of this complexity at the quantizer `q`. -/
def predict (m : SizeModel δ) (q complexity : δ) : δ :=
  m.coefficient * complexity / (q * m.count)

/-- The complexity below which the size of a picture says nothing about the coefficient. -/
def leastComplexity : δ := 10.0

/-- Takes in the size of a picture of this complexity that was coded at the quantizer `q`. -/
def update (m : SizeModel δ) (q complexity size : δ) : SizeModel δ :=
  if complexity < leastComplexity then m
  else
    { m with
      coefficient := m.coefficient * m.decay + size * q / (complexity + 1.0)
      count := m.count * m.decay + 1.0 }

end SizeModel
end RateControl
