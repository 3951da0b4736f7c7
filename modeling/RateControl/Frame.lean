-- SUMMARY: What an encoder tells about the next picture, and what it gets back.
import RateControl.Masking
import RateControl.Statistics.Record

/-! # Frames

A frame is a picture that is about to be coded. The decision on it is a quantizer, and one lambda per
macroblock where masking is in use. -/

namespace RateControl

/-- A picture that is about to be coded. -/
structure Frame where
  /-- The index in coding order. -/
  picture : Nat := 0
  pictureType : PictureType := .predicted
  /-- The type of the picture before. -/
  lastType : PictureType := .predicted
  /-- The sum of the macroblock variances. -/
  varSum : Int64 := 0
  /-- The sum of the motion-compensated macroblock variances. -/
  mcVarSum : Int64 := 0
  /-- The size codes of forward and backward motion vectors. -/
  forwardCode : Int32 := 0
  backwardCode : Int32 := 0
  /-- When the picture is shown, in units of the time base, if that is known. -/
  timestamp : Option Int64 := none
  /-- The size of the picture before, in bits. -/
  lastBits : Int64 := 0
  /-- The bits written so far. -/
  totalBits : Int64 := 0
  macroblocks : Option Macroblocks := none

namespace Frame

variable {σ δ : Type}

/-- The variance that says how complex the picture is. -/
def complexity (f : Frame) : Int64 := if f.pictureType = .intra then f.varSum else f.mcVarSum

/-- The record of a picture of which no size is known yet. -/
def record [Scalar σ] (f : Frame) (quantizer : σ) : Record σ where
  pictureType := f.pictureType
  quantizer := quantizer
  plannedQuantizer := 0.0
  miscBits := 1
  forwardCode := f.forwardCode
  backwardCode := f.backwardCode
  mcVarSum := f.mcVarSum
  varSum := f.varSum

/-- The time since the start of the sequence, one unit per picture where nothing else is known. -/
def elapsed (f : Frame) : Int64 := f.timestamp.getD (.ofNat f.picture)

end Frame

/-- What is decided on a picture. -/
structure Decision (σ : Type) where
  /-- The quantizer, a whole number unless there are lambdas for the macroblocks. -/
  quantizer : σ
  lambdas : Option (List Int)

end RateControl
