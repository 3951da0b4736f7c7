-- SUMMARY: The settings of an encoder that bear on its quantizers, with their defaults, the numbers derived from them, and their one-line text.
import RateControl.Scalar
import RateControl.Numeral.Shortest
import RateControl.Numeral.Fixed
import RateControl.Picture

/-! # Settings

Quantizers are counted in two units. The user gives QP values; the estimators work on the lambda
scale, on which QP 1 is `lambdaPerQP`. -/

namespace RateControl

/-- The number of binary places of the lambda scale. -/
def lambdaShift : Nat := 7

/-- A whole lambda unit. -/
def lambdaScale : Int := Nat.pow 2 lambdaShift

/-- The lambda of QP 1. -/
def lambdaPerQP : Int := 118

/-- The greatest lambda. -/
def lambdaMax : Int := 256 * 128 - 1

/-- The rate equation used when none is set. -/
def defaultEquation : String := "tex^qComp"

/-- The duration of a picture, as a fraction of a second. -/
structure TimeBase where
  num : Nat
  den : Nat

namespace TimeBase

variable {δ : Type} [Scalar δ]

def seconds (t : TimeBase) : δ := Scalar.ofNat t.num / Scalar.ofNat t.den

def picturesPerSecond (t : TimeBase) : δ := Scalar.ofNat t.den / Scalar.ofNat t.num

end TimeBase

/-- The limits of the quantizers, and how I and B pictures relate to P pictures. -/
structure QuantizerSettings (σ : Type) where
  /-- The least and greatest QP. -/
  qmin : Int32
  qmax : Int32
  /-- The least and greatest picture lambda. -/
  lmin : Int32
  lmax : Int32
  /-- The greatest QP step between pictures of one type. -/
  maxStep : Int32
  /-- Factor and offset from P to I quantizers. With a negative factor, I quantizers come from the
      rate equation and not from the last P quantizer. -/
  intraFactor : σ
  intraOffset : σ
  /-- Factor and offset from P to B quantizers. With a negative factor, B quantizers come from the
      rate equation and not from the last quantizer of another type. -/
  bidirectionalFactor : σ
  bidirectionalOffset : σ

namespace QuantizerSettings

variable {σ : Type} [Scalar σ]

/-- The default factors, with a QP range and the lambda range that goes with it. -/
def ofRange (qmin qmax : Int32) : QuantizerSettings σ where
  qmin := qmin
  qmax := qmax
  lmin := qmin * .ofInt lambdaPerQP
  lmax := qmax * .ofInt lambdaPerQP
  maxStep := 3
  intraFactor := -0.8
  intraOffset := 0.0
  bidirectionalFactor := 1.25
  bidirectionalOffset := 1.25

/-- Factor and offset of a type relative to P pictures. -/
def factorOffset (q : QuantizerSettings σ) : PictureType → Option (σ × σ)
  | .intra         => some (q.intraFactor, q.intraOffset)
  | .bidirectional => some (q.bidirectionalFactor, q.bidirectionalOffset)
  | _              => none

end QuantizerSettings

/-- How a picture's lambda is spread over its macroblocks. -/
structure MaskingSettings (σ : Type) where
  /-- Quantizer increase for bright macroblocks. -/
  luminance : σ
  /-- Quantizer increase for dark macroblocks. -/
  darkness : σ
  /-- Quantizer increase for macroblocks of high temporal complexity. -/
  temporal : σ
  /-- Quantizer increase for macroblocks of high spatial complexity. -/
  spatial : σ
  /-- Quantizer increase for intra macroblocks of predicted pictures. -/
  intra : σ
  /-- Quantizer increase towards the borders of the picture. -/
  border : σ
  /-- Whether clipped macroblocks leave the average of the others alone. -/
  normalized : Bool
  /-- The least and greatest macroblock lambda. -/
  lmin : Int32
  lmax : Int32

namespace MaskingSettings

/-- No masking, over the lambdas of QP 2 to QP 31. -/
def neutral {σ : Type} [Scalar σ] : MaskingSettings σ where
  luminance := 0.0
  darkness := 0.0
  temporal := 0.0
  spatial := 0.0
  intra := 0.0
  border := 0.0
  normalized := false
  lmin := 2 * .ofInt lambdaPerQP
  lmax := 31 * .ofInt lambdaPerQP

end MaskingSettings

/-- The settings of an encoder that bear on its quantizers. -/
structure Settings (σ : Type) where
  timeBase : TimeBase
  /-- Width and height of the pictures, in macroblocks. -/
  mbWidth : Nat
  mbHeight : Nat
  /-- Distance between two intra pictures. -/
  gopSize : Nat
  /-- The greatest number of B pictures in a row. -/
  maxBFrames : Nat
  /-- Whether every picture is intra coded. -/
  intraOnly : Bool
  /-- The bitrate asked for, in bits per second. -/
  bitrate : Int64
  /-- How far, in bits, the output may drift before the compensation saturates. -/
  tolerance : Int32
  /-- The size of the decoder buffer in bits, 0 for no buffer. -/
  bufferSize : Int32
  /-- How full the buffer is at the start, 0 for three quarters. -/
  initialOccupancy : Int32
  /-- The least and greatest channel rate, in bits per second. -/
  minRate : Int64
  maxRate : Int64
  /-- How strongly the quantizer reacts to the buffer. -/
  aggressivity : σ
  /-- The share of an overflow that the limit of the least rate may use. -/
  overflowUse : σ
  /-- The share of the content that the limit of the greatest rate may use. -/
  contentUse : σ
  /-- The least number of stuffing bytes where any are needed. -/
  minStuffing : Int32
  /-- Compression of the quantizer curve: 0 for constant bitrate, 1 for constant quantizer. -/
  compression : σ
  /-- Blur of the quantizer curve over time. -/
  blur : σ
  /-- Whether the quantizer is pressed softly into its range (not 0) or clipped (0). -/
  squish : σ
  /-- Amplitude of the periodic modulation of P pictures. -/
  modulation : σ
  /-- Period of that modulation, 0 for none. -/
  modulationPeriod : Nat
  /-- The complexity from which a single pass warms up, 0 for none. -/
  initialComplexity : σ
  equation : Option String
  /-- Directives for ranges of pictures, as `start,end,q/start,end,q/…`. -/
  directives : Option String
  quantizer : QuantizerSettings σ
  masking : Option (MaskingSettings σ)

namespace Settings

/-- The settings used where the user gives none. -/
def standard {σ : Type} [Scalar σ] : Settings σ where
  timeBase := ⟨1, 25⟩
  mbWidth := 22
  mbHeight := 18
  gopSize := 12
  maxBFrames := 0
  intraOnly := false
  bitrate := 200000
  tolerance := 200000 * 20
  bufferSize := 0
  initialOccupancy := 0
  minRate := 0
  maxRate := 0
  aggressivity := 1.0
  overflowUse := 3.0
  contentUse := 1.0
  minStuffing := 0
  compression := 0.5
  blur := 0.5
  squish := 0.0
  modulation := 0.0
  modulationPeriod := 0
  initialComplexity := 0.0
  equation := none
  directives := none
  quantizer := .ofRange 2 31
  masking := none

variable {σ δ : Type} [Scalar δ]

def frameRate (s : Settings σ) : δ := s.timeBase.picturesPerSecond

/-- The number of macroblocks of a picture, in 64 bits. -/
def mbCount (s : Settings σ) : Nat := (.ofNat s.mbWidth * .ofNat s.mbHeight : UInt64).toNat

/-- The rate equation in effect. -/
def equationText (s : Settings σ) : String := s.equation.getD defaultEquation

/-- The size of a picture at the bitrate asked for, in bits. -/
def bitsPerFrame (s : Settings σ) : δ := Scalar.ofInt s.bitrate.toInt / s.frameRate

/-- The main settings on one line. -/
def summary (s : Settings Float32) : String :=
  let pairs : List (String × String) :=
    [("bitrate", toString s.bitrate.toInt),
     ("fps", fixedText 3 (s.frameRate : Float)),
     ("rc_eq", s.equationText),
     ("qcompress", plainText s.compression),
     ("qblur", plainText s.blur),
     ("qmin", toString s.quantizer.qmin.toInt),
     ("qmax", toString s.quantizer.qmax.toInt),
     ("buffer_size", toString s.bufferSize.toInt),
     ("min_rate", toString s.minRate.toInt),
     ("max_rate", toString s.maxRate.toInt),
     ("adaptive_quant", toString s.masking.isSome)]
  " ".intercalate (pairs.map fun (name, value) => name ++ "=" ++ value)

end Settings
end RateControl
