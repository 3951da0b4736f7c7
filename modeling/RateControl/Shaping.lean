-- SUMMARY: Modulation, protection of the decoder buffer, and the lambda range: the last steps from a candidate to a quantizer.
import RateControl.DecoderBuffer
import RateControl.LambdaRange
import RateControl.Statistics.Record

/-! # Shaping

A candidate is modulated, raised or lowered to keep the decoder buffer from running dry or over, and
brought into the lambda range of its picture type, either by clipping or along a soft curve. -/

namespace RateControl.Settings

variable {σ δ : Type} [Scalar δ] [Precision σ δ]

-- ---------------------------------------------------------------------------
-- Modulation
-- ---------------------------------------------------------------------------

/-- Every P picture whose number is a multiple of the period is modulated. -/
def isModulated (s : Settings σ) (t : PictureType) (picture : Nat) : Bool :=
  s.modulationPeriod ≠ 0 ∧ picture % s.modulationPeriod = 0 ∧ t = .predicted

def modulated (s : Settings σ) (t : PictureType) (picture : Nat) (q : δ) : δ :=
  if s.isModulated t picture then q * widen s.modulation else q

-- ---------------------------------------------------------------------------
-- Buffer protection
-- ---------------------------------------------------------------------------

/-- A share of the buffer, brought into `0.0001 … 1`. -/
def clipShare (d : δ) : δ :=
  if d > 1.0 then 1.0
  else if d < 0.0001 then 0.0001
  else d

/-- How a share of the buffer changes the quantizer. -/
def reaction (s : Settings σ) (d : δ) : δ :=
  Scalar.pow (clipShare d) (1.0 / widen s.aggressivity)

/-- Lowers the quantizer of a buffer that is nearly full, so that the picture takes up what the least
    rate brings. -/
def againstOverflow (s : Settings σ) (b : Buffer δ) (r : Record σ) (q : δ) : Logged (Event σ δ) δ := do
  if b.minRate == 0.0 then return q
  let q := q * s.reaction (2.0 * (b.capacity - b.occupancy) / b.capacity)
  let room := (b.minRate - b.capacity + b.occupancy) * widen s.overflowUse
  let limit ← r.quantizerFor (Scalar.max room 1.0)
  .noteIf (q > limit) (.limiting q limit)
  return if q > limit then limit else q

/-- Raises the quantizer of a buffer that is nearly empty, so that the picture leaves something in it. -/
def againstUnderflow (s : Settings σ) (b : Buffer δ) (r : Record σ) (q : δ) : Logged (Event σ δ) δ := do
  if b.maxRate == 0.0 then return q
  let q := q / s.reaction (2.0 * b.occupancy / b.capacity)
  let limit ← r.quantizerFor (Scalar.max (b.occupancy * widen s.contentUse) 1.0)
  .noteIf (q < limit) (.limiting q limit)
  return if q < limit then limit else q

def protect (s : Settings σ) (b : Buffer δ) (r : Record σ) (q : δ) : Logged (Event σ δ) δ :=
  if b.isEnabled then
    s.againstOverflow b r q >>= s.againstUnderflow b r
  else return q

-- ---------------------------------------------------------------------------
-- Lambda range
-- ---------------------------------------------------------------------------

/-- A quantizer clipped to a range. -/
def clipped (lo hi q : δ) : δ :=
  if q < lo then lo
  else if q > hi then hi
  else q

/-- A quantizer pressed into a range along a logistic curve on the logarithmic scale. -/
def squished (lo hi q : δ) : δ :=
  let a := Scalar.log lo
  let b := Scalar.log hi
  let x := (Scalar.log q - a) / (b - a) - 0.5
  let y := 1.0 / (1.0 + Scalar.exp (-4.0 * x))
  Scalar.exp (y * (b - a) + a)

variable [Scalar σ]

/-- A quantizer brought into a range in the way of the settings. -/
def intoRange (s : Settings σ) (range : LambdaRange) (q : δ) : δ :=
  let lo := Scalar.ofInt range.least
  let hi := Scalar.ofInt range.greatest
  if s.squish == 0.0 || lo == hi then clipped lo hi q else squished lo hi q

/-- The quantizer of a picture for a candidate `q`. -/
def shape (s : Settings σ) (b : Buffer δ) (r : Record σ) (q : δ) (picture : Nat) :
    Logged (Event σ δ) δ := do
  let q ← s.protect b r (s.modulated r.pictureType picture q)
  return s.intoRange (s.quantizer.lambdaRange δ r.pictureType) q

end RateControl.Settings
