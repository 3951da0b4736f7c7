-- SUMMARY: What stays fixed over a sequence: the settings with the rate equation and the directives read from them.
import RateControl.Directive
import RateControl.Equation
import RateControl.Sums

/-! # Policy

The fixed part of the control, and the values that the symbols of the rate equation have under it. -/

namespace RateControl

structure Policy (σ : Type) where
  settings : Settings σ
  equation : Equation
  directives : List (Directive σ)

namespace Policy

variable {σ δ : Type} [Scalar σ] [Scalar δ] [Precision σ δ]

/-- Reads the directives of the settings. -/
def readDirectives (s : Settings σ) : Except (Fault σ δ) (List (Directive σ)) :=
  match s.directives with
  | none      => .ok []
  | some text =>
    match Directive.readList? text with
    | some ds => .ok ds
    | none    => .error (.invalidDirectives text)

/-- Reads equation and directives. A fault is also noted as an event. -/
def ofSettings (s : Settings σ) : Attempt (Event σ δ) (Fault σ δ) (Policy σ) :=
  tryCatch
    (do
      let equation ← Equation.parse s.equationText
      let directives ← MonadExcept.ofExcept (readDirectives s)
      return ⟨s, equation, directives⟩)
    fun f => .stop (.fault f) f

/-- The number of macroblocks of a picture. -/
def mbCount (p : Policy σ) : δ := Scalar.ofNat p.settings.mbCount

/-- The quantizer that a picture is taken to have before it gets one, that of QP 2. -/
def nominalQuantizer : σ := Scalar.ofInt (2 * lambdaPerQP)

/-- The values of the symbols for a picture, given the sums over the pictures so far. -/
def symbolValue (p : Policy σ) (sums : PerType (Sums δ)) (r : Record σ) : Symbol → δ :=
  let t := r.pictureType
  let q : δ := widen r.quantizer
  let own := sums.get t
  let flag (u : PictureType) : δ := if t = u then 1.0 else 0.0
  fun
  | .pi                       => Equation.piValue
  | .euler                    => Equation.eulerValue
  | .intraTexture             => Scalar.ofInt r.intraBits.toInt * q
  | .predictedTexture         => Scalar.ofInt r.predictedBits.toInt * q
  | .texture                  =>
    (Scalar.ofInt r.intraBits.toInt + Scalar.ofInt r.predictedBits.toInt) * q
  | .motion                   => Scalar.ofInt r.motionBits.toInt / p.mbCount
  | .motionCode               =>
    if t = .bidirectional then
      (Scalar.ofInt r.forwardCode.toInt + Scalar.ofInt r.backwardCode.toInt) * 0.5
    else Scalar.ofInt r.forwardCode.toInt
  | .intraShare               => Scalar.ofInt r.intraCount.toInt / p.mbCount
  | .mcVariance               => Scalar.ofInt r.mcVarSum.toInt / p.mbCount
  | .variance                 => Scalar.ofInt r.varSum.toInt / p.mbCount
  | .isIntra                  => flag .intra
  | .isPredicted              => flag .predicted
  | .isBidirectional          => flag .bidirectional
  | .averageQuantizer         => own.average own.quantizer
  | .compression              => widen p.settings.compression
  | .intraOfIntra             => sums.intra.average sums.intra.intra
  | .intraOfPredicted         => sums.predicted.average sums.predicted.intra
  | .predictedOfPredicted     => sums.predicted.average sums.predicted.predicted
  | .predictedOfBidirectional => sums.bidirectional.average sums.bidirectional.predicted
  | .averageTexture           => own.average (own.intra + own.predicted)

end Policy
end RateControl
