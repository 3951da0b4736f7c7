-- SUMMARY: What a first pass records of a picture, together with its plan, and the size model of a single picture.
import RateControl.Event
import RateControl.Logged

/-! # Records

One record holds what a first pass found out about a picture, and what is planned for it. The texture
of a picture is taken to cost bits in inverse proportion to the quantizer. -/

namespace RateControl

/-- The statistics of a picture, and its plan. Quantizers are lambdas. -/
structure Record (σ : Type) where
  pictureType : PictureType := .predicted
  /-- The quantizer with which the picture was coded. -/
  quantizer : σ
  /-- Bits spent on motion vectors. -/
  motionBits : Int32 := 0
  /-- Bits spent on intra texture. -/
  intraBits : Int32 := 0
  /-- Bits spent on predicted texture. -/
  predictedBits : Int32 := 0
  /-- Bits spent on the picture header. -/
  headerBits : Int32 := 0
  /-- Bits spent on everything else. -/
  miscBits : Int32 := 0
  /-- The number of intra macroblocks. -/
  intraCount : Int32 := 0
  /-- The number of skipped macroblocks. -/
  skipCount : Int32 := 0
  /-- The size codes of forward and backward motion vectors. -/
  forwardCode : Int32 := 0
  backwardCode : Int32 := 0
  /-- The sum of the motion-compensated macroblock variances. -/
  mcVarSum : Int64 := 0
  /-- The sum of the macroblock variances. -/
  varSum : Int64 := 0
  /-- The planned quantizer. -/
  plannedQuantizer : σ
  /-- The planned size of all pictures before this one, in bits. -/
  plannedBits : Nat := 0
deriving BEq

namespace Record

variable {σ δ : Type}

/-- A predicted picture of which nothing was recorded. -/
def blank [Scalar σ] : Record σ := { quantizer := 0.0, plannedQuantizer := 0.0 }

/-- The stand-in for a picture that was not recorded: a predicted picture of `mbCount` macroblocks, all
    of them skipped, at QP 2. -/
def skipped [Scalar σ] (mbCount : Nat) : Record σ where
  quantizer := Scalar.ofInt (2 * lambdaPerQP)
  plannedQuantizer := Scalar.ofInt (2 * lambdaPerQP)
  miscBits := .ofNat (mbCount + 10)
  varSum := .ofNat mbCount * 100

variable [Scalar δ] [Precision σ δ]

/-- The texture of a picture in bits times its quantizer, one bit added. -/
def textureScale (r : Record σ) : δ :=
  widen r.quantizer * (Scalar.ofInt r.intraBits.toInt + Scalar.ofInt r.predictedBits.toInt + 1.0)

/-- The bits that the texture takes at the quantizer `q`. -/
def bitsAt (r : Record σ) (q : δ) : Logged (Event σ δ) δ := do
  .noteIf (q ≤ 0.0) .quantizerNotPositive
  return r.textureScale / q

/-- The quantizer at which the texture takes `bits`. -/
def quantizerFor (r : Record σ) (bits : δ) : Logged (Event σ δ) δ := do
  .noteIf (bits < 0.9) .tooFewBits
  return r.textureScale / bits

@[simp] theorem value_bitsAt (r : Record σ) (q : δ) : (r.bitsAt q).value = r.textureScale / q := rfl

@[simp] theorem value_quantizerFor (r : Record σ) (bits : δ) :
    (r.quantizerFor bits).value = r.textureScale / bits := rfl

end Record
end RateControl
