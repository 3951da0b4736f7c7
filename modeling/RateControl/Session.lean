-- SUMMARY: Sessions: set-up from settings and statistics, estimates, the decoder buffer, and runs of steps.
import RateControl.Plan
import RateControl.SinglePass
import RateControl.Statistics.Log

/-! # Sessions

A session controls one sequence. It is a second pass if it was set up with statistics, and then its
table holds the plan. Estimates and coded pictures change the state; settings and table stay. -/

namespace RateControl

structure Session (σ δ : Type) where
  policy : Policy σ
  /-- The planned records of a second pass; a single pass has none. -/
  table : List (Record σ)
  state : State δ

namespace Session

variable {σ δ : Type}

def isSecondPass (s : Session σ δ) : Bool := !s.table.isEmpty

/-- The bits in the decoder buffer. -/
def occupancy (s : Session σ δ) : δ := s.state.buffer.occupancy

/-- The record with this index. -/
def record? (s : Session σ δ) (n : Nat) : Option (Record σ) := s.table[n]?

/-- The size codes of forward and backward motion vectors that the first pass recorded. -/
def motionCodes? (s : Session σ δ) (n : Nat) : Option (Int32 × Int32) :=
  (s.record? n).map fun r => (r.forwardCode, r.backwardCode)

variable [Scalar σ] [Scalar δ] [Precision σ δ]

-- ---------------------------------------------------------------------------
-- Set-up
-- ---------------------------------------------------------------------------

/-- Sets a session up. With statistics the whole sequence is planned here. -/
def create (settings : Settings σ) (statistics : Option (Log σ)) :
    Attempt (Event σ δ) (Fault σ δ) (Session σ δ) := do
  if let some v := settings.violation? statistics.isSome then
    throw (.invalidSetting v)
  let policy ← Policy.ofSettings settings
  match statistics with
  | none     => return ⟨policy, [], ← policy.start⟩
  | some log =>
    let table ← MonadExcept.ofExcept (log.table settings.maxBFrames settings.mbCount)
    let (table, state) ← policy.plan (.initial settings) table
    return ⟨policy, table, state⟩

/-- Sets a second pass up from the text of its statistics, which is read before anything is checked. -/
def createFromText [Binary σ] (settings : Settings σ) (text : String) :
    Attempt (Event σ δ) (Fault σ δ) (Session σ δ) := do
  let log ← MonadExcept.ofExcept (Log.read text)
  create settings (some log)

-- ---------------------------------------------------------------------------
-- Estimates
-- ---------------------------------------------------------------------------

/-- The bits that should have been written before a frame of a single pass. -/
def wantedBits (δ : Type) [Scalar δ] (s : Settings σ) (f : Frame) : Int64 :=
  .ofInt (Scalar.toInt64 (Scalar.ofInt s.bitrate.toInt * Scalar.ofInt f.elapsed.toInt / s.frameRate : δ))

/-- How the drift from `wanted` to the bits written so far changes the sizes to come. The drift is a signed
    number of 64 bits, and wraps around. -/
def compensation (s : Settings σ) (f : Frame) (wanted : Int64) : δ :=
  let tolerance : δ := Scalar.ofInt s.tolerance.toInt
  let x := (tolerance - Scalar.ofInt (f.totalBits - wanted).toInt) / tolerance
  if x ≤ 0.0 then 0.001 else x

/-- The candidate for a frame that the plan has a record for. -/
def plannedCandidate (r : Record σ) (f : Frame) (compensation : δ) :
    Logged (Event σ δ) (Candidate δ) := do
  .noteIf (f.pictureType ≠ .intra ∧ f.pictureType ≠ r.pictureType)
    (.typeMismatch f.picture f.pictureType r.pictureType)
  return ⟨widen r.plannedQuantizer / compensation, 0.0⟩

def report (s : Session σ δ) (f : Frame) (range : LambdaRange) (wanted : Int64) (compensation : δ)
    (c : Candidate δ) : EstimateReport δ where
  pictureType := f.pictureType
  qmin := range.least
  quantizer := c.quantizer
  qmax := range.greatest
  picture := f.picture
  wantedBits := wanted.toInt
  totalBits := f.totalBits.toInt
  compensation := compensation
  shortTerm := c.shortTerm
  lastBits := f.lastBits.toInt
  varSum := f.varSum.toInt
  mcVarSum := f.mcVarSum.toInt
  bitrate := s.policy.settings.bitrate.toInt
  frameRate := s.policy.settings.frameRate

/-- The decision for a quantizer: lambdas for the macroblocks where masking is in use, and otherwise a
    whole number. -/
def decide (masking : Option (MaskingSettings σ)) (f : Frame) (q : σ) :
    Logged (Event σ δ) (Decision σ) :=
  match masking, f.macroblocks with
  | some m, some b => return ⟨q, some (m.lambdas b q)⟩
  | m, _           => do
    .noteIf m.isSome (.maskingSkipped f.picture)
    return ⟨Scalar.floor (q + 0.5), none⟩

/-- Ends an estimate: reports the candidate, clips it and decides. -/
def conclude (s : Session σ δ) (f : Frame) (wanted : Int64) (compensation : δ) (c : Candidate δ) :
    Logged (Event σ δ) (Except (Fault σ δ) (Decision σ) × Session σ δ) := do
  let range := s.policy.settings.quantizer.lambdaRange δ f.pictureType
  .note (.estimate (s.report f range wanted compensation c))
  let q : σ := Settings.clipped (Scalar.ofInt range.least) (Scalar.ofInt range.greatest)
    (narrow c.quantizer)
  let decision ← decide s.policy.settings.masking f q
  let last := ⟨widen decision.quantizer, f.varSum, f.mcVarSum⟩
  return (.ok decision, { s with state := { s.state with last } })

/-- An estimate of a second pass. -/
def estimatePlanned (s : Session σ δ) (f : Frame) :
    Logged (Event σ δ) (Except (Fault σ δ) (Decision σ) × Session σ δ) :=
  match s.record? f.picture with
  | none   => do
    .note (.pictureNotPlanned f.picture)
    return (.error (.pictureOutOfRange f.picture s.table.length), s)
  | some r => do
    let wanted := Int64.ofNat r.plannedBits
    let compensation := compensation s.policy.settings f wanted
    s.conclude f wanted compensation (← plannedCandidate r f compensation)

/-- An estimate of a single pass. The size of the picture before is known from the fourth picture on. -/
def estimateUnplanned (s : Session σ δ) (f : Frame) :
    Logged (Event σ δ) (Except (Fault σ δ) (Decision σ) × Session σ δ) := do
  let wanted := wantedBits δ s.policy.settings f
  let compensation := compensation s.policy.settings f wanted
  let state := if 2 < f.picture then s.state.learn f.lastType f.lastBits.toInt else s.state
  match ← s.policy.propose state f compensation with
  | (.error e, state) => return (.error e, { s with state })
  | (.ok c, state)    => ({ s with state } : Session σ δ).conclude f wanted compensation c

/-- Chooses the quantizer for a frame. A dry run puts the state back. -/
def estimate (s : Session σ δ) (f : Frame) (dryRun : Bool) :
    Logged (Event σ δ) (Except (Fault σ δ) (Decision σ) × Session σ δ) := do
  let (answer, after) ← if s.isSecondPass then s.estimatePlanned f else s.estimateUnplanned f
  return (answer, if dryRun then { after with state := s.state } else after)

-- ---------------------------------------------------------------------------
-- Coded pictures
-- ---------------------------------------------------------------------------

/-- Takes a coded picture of `bits` out of the decoder buffer. Yields its stuffing bytes. -/
def drain (s : Session σ δ) (bits : Int64) : Logged (Event σ δ) (Int × Session σ δ) := do
  let (stuffing, buffer) ← s.state.buffer.update bits.toInt
  return (stuffing, { s with state := { s.state with buffer } })

end Session
end RateControl
