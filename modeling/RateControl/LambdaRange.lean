-- SUMMARY: The range of lambdas that the pictures of a type may have.
import RateControl.Settings

/-! # Lambda ranges

I and B pictures have a range of their own, which is the range of the settings under the factor and
offset of the type. -/

namespace RateControl

/-- The least and greatest lambda. -/
structure LambdaRange where
  least : Int
  greatest : Int
deriving DecidableEq

namespace QuantizerSettings

variable {σ : Type}

/-- A lambda under a factor and an offset, rounded to the nearest whole number. -/
def scaled (δ : Type) [Scalar σ] [Scalar δ] [Precision σ δ] (factor offset : σ) (lambda : Int) : Int :=
  Scalar.toInt32 (Scalar.ofInt lambda * widen (Scalar.abs factor) + widen offset + 0.5 : δ)

/-- A lambda brought into the range of all lambdas. -/
def clampLambda (lambda : Int) : Int := min (max lambda 1) lambdaMax

/-- The range of a picture type. The upper end gives way where the ends have changed order. -/
def lambdaRange (δ : Type) [Scalar σ] [Scalar δ] [Precision σ δ] (q : QuantizerSettings σ)
    (t : PictureType) : LambdaRange :=
  let (lo, hi) := match q.factorOffset t with
    | some (f, o) => (scaled δ f o q.lmin.toInt, scaled δ f o q.lmax.toInt)
    | none        => (q.lmin.toInt, q.lmax.toInt)
  let (lo, hi) := (clampLambda lo, clampLambda hi)
  ⟨lo, if hi < lo then lo else hi⟩

end QuantizerSettings
end RateControl
