-- SUMMARY: Quantizers without statistics: the size of a picture is predicted, and the control warms up on synthetic pictures.
import RateControl.Frame
import RateControl.Grant
import RateControl.Shaping
import RateControl.State

/-! # Single pass

Without a first pass the size of the next picture is predicted from the pictures before, and the rate
factor is the quotient of what the bitrate asked for and what the rate equation gave so far. -/

namespace RateControl

/-- A quantizer before it is narrowed, with the short-term average that went into it, or 0. -/
structure Candidate (δ : Type) where
  quantizer : δ
  shortTerm : δ

namespace Policy

variable {σ δ : Type} [Scalar σ] [Scalar δ] [Precision σ δ]

/-- The record with a predicted size: all of it intra texture in an I picture, nine parts of predicted
    texture and one of motion vectors in others. -/
def withSize (p : Policy σ) (r : Record σ) (bits : δ) : Record σ :=
  let whole (x : δ) : Int32 := .ofInt (Scalar.toInt32 x)
  if r.pictureType = .intra then
    { r with intraCount := whole p.mbCount, intraBits := whole bits }
  else
    { r with predictedBits := whole (bits * 0.9), motionBits := whole (bits * 0.1) }

-- ---------------------------------------------------------------------------
-- Estimates
-- ---------------------------------------------------------------------------

/-- The record of a frame with the size that the model of its type predicts. -/
def forecast (p : Policy σ) (st : State δ) (f : Frame) : Record σ :=
  let r : Record σ := f.record nominalQuantizer
  let complexity := Scalar.sqrt (Scalar.ofInt f.complexity.toInt)
  p.withSize r ((st.models.get f.pictureType).predict (widen r.quantizer) complexity)

/-- Whether pictures of the type go into the short-term average. -/
def isAveraged (p : Policy σ) (t : PictureType) : Bool := t = .predicted ∨ p.settings.intraOnly

/-- The quantizer for a frame, and the state after it. A frame for which the equation has no value has
    been counted, but nothing else has happened. -/
def propose (p : Policy σ) (st : State δ) (f : Frame) (compensation : δ) :
    Logged (Event σ δ) (Except (Fault σ δ) (Candidate δ) × State δ) := do
  let t := f.pictureType
  let r := p.forecast st f
  let st := st.account r
  match ← (p.grant st.sums r (st.wanted / st.granted * compensation) f.picture).run with
  | .error e => return (.error e, st)
  | .ok g    =>
    let (q, history) := st.history.limit p.settings.quantizer t g.quantizer
    let average := if p.isAveraged t then st.average.add (widen p.settings.blur) q else st.average
    let q := if p.isAveraged t then average.value else q
    let shortTerm := if p.isAveraged t then average.value else 0.0
    let q ← p.settings.shape st.buffer r q f.picture
    let st := { st with
      history, average
      granted := st.granted + g.value
      wanted := st.wanted + p.settings.bitsPerFrame }
    return (.ok ⟨q, shortTerm⟩, st)

-- ---------------------------------------------------------------------------
-- Warm-up
-- ---------------------------------------------------------------------------

/-- The number of synthetic pictures, one minute at 30 pictures per second. -/
def warmUpCount : Nat := 60 * 30

/-- The type of a synthetic picture. -/
def warmUpType (s : Settings σ) (i : Nat) : PictureType :=
  if i % max ((s.gopSize + 3) / 4) 1 = 0 then .intra
  else if i % (s.maxBFrames + 1) ≠ 0 then .bidirectional
  else .predicted

/-- A synthetic picture. The complexity of the settings grows a little from picture to picture. -/
def warmUpRecord (δ : Type) [Scalar δ] [Precision σ δ] (p : Policy σ) (i : Nat) : Record σ :=
  let mbCount : δ := p.mbCount
  let bits := widen p.settings.initialComplexity * (Scalar.ofNat i / 10000.0 + 1.0) * mbCount
  p.withSize
    { pictureType := warmUpType p.settings i
      quantizer := nominalQuantizer
      plannedQuantizer := 0.0
      miscBits := 1
      forwardCode := 2
      backwardCode := 1
      mcVarSum := .ofInt (Scalar.toInt64 (bits * mbCount / 100000.0))
      varSum := .ofInt (Scalar.toInt64 mbCount) }
    bits

/-- Takes in a synthetic picture. -/
def warmUpStep (p : Policy σ) (st : State δ) (i : Nat) :
    Attempt (Event σ δ) (Fault σ δ) (State δ) := do
  let r := warmUpRecord δ p i
  let st := st.account r
  let g ← p.grant st.sums r (st.wanted / st.granted) i
  return { st with
    granted := st.granted + g.value
    wanted := st.wanted + p.settings.bitsPerFrame }

/-- The state in which a single pass starts, after the synthetic pictures if there are any. -/
def start (p : Policy σ) : Attempt (Event σ δ) (Fault σ δ) (State δ) :=
  let st := State.seeded p.settings
  if p.settings.initialComplexity == 0.0 then return st
  else .fold p.warmUpStep st (.range warmUpCount)

end Policy
end RateControl
