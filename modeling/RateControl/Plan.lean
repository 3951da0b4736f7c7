-- SUMMARY: The plan of a second pass: one rate factor for the whole sequence, so that the planned size meets the bitrate.
import RateControl.Plan.Search
import RateControl.Plan.Trial

/-! # Plan

A second pass knows all pictures beforehand. It searches for the rate factor at which the planned size of
the sequence meets the size that the bitrate asks for, and keeps the quantizers of the last trial. -/

namespace RateControl.Policy

variable {σ δ : Type} [Scalar σ] [Scalar δ] [Precision σ δ]

-- ---------------------------------------------------------------------------
-- Budget
-- ---------------------------------------------------------------------------

/-- The bits of a picture that do not depend on its quantizer. -/
def fixedBits (r : Record σ) : Nat := (max r.motionBits.toInt 0 + max r.miscBits.toInt 0).toNat

/-- The fixed bits of all I, P and B pictures. -/
def fixedTotal (table : List (Record σ)) : Nat :=
  (table.filter fun r => r.pictureType ∈ [.intra, .predicted, .bidirectional]).foldl
    (fun sum r => sum + fixedBits r) 0

/-- The bits that the bitrate allows for `n` pictures. -/
def budget (δ : Type) [Scalar δ] (s : Settings σ) (n : Nat) : Nat :=
  Scalar.toNat64 (Scalar.ofInt s.bitrate.toInt * Scalar.ofNat n / s.frameRate : δ)

/-- The texture of a table in bits times quantizer, for each picture type. -/
def textureTotals (table : List (Record σ)) : PerType δ :=
  table.foldl
    (fun totals r => totals.modify r.pictureType fun x =>
      x + (Scalar.ofInt r.intraBits.toInt + Scalar.ofInt r.predictedBits.toInt) * widen r.quantizer)
    (.replicate 0.0)

-- ---------------------------------------------------------------------------
-- Search
-- ---------------------------------------------------------------------------

/-- A rate factor that is given in units of `2 ^ -23`. -/
def factorOf (units : Nat) : δ := Scalar.ofNat units / 8388608.0

/-- What goes from trial to trial: the last trial, and the state after it. -/
abbrev Carried (σ δ : Type) := Trial σ δ × State δ

/-- A trial of the search, which overshoots if it is planned greater than `available`. -/
def searchTrial (p : Policy σ) (available : Nat) (units : Nat) (c : Carried σ δ) :
    Attempt (Event σ δ) (Fault σ δ) (Bool × Carried σ δ) := do
  let factor := factorOf units
  let (t, st) ← p.trial factor c.2 c.1.table
  Attempt.ofLogged (.note (.trial t.total available factor))
  return (t.total > Scalar.ofNat available, t, st)

-- ---------------------------------------------------------------------------
-- Result
-- ---------------------------------------------------------------------------

/-- The average QP of a planned table, each QP brought into the range of the settings. -/
def averageQP (δ : Type) [Scalar δ] [Precision σ δ] (s : QuantizerSettings σ)
    (table : List (Record σ)) : δ :=
  let qp (r : Record σ) : δ :=
    Scalar.min
      (Scalar.max (widen r.plannedQuantizer / Scalar.ofInt lambdaPerQP) (Scalar.ofInt s.qmin.toInt))
      (Scalar.ofInt s.qmax.toInt)
  table.foldl (fun sum r => sum + qp r) 0.0 / Scalar.ofNat table.length

/-- Whether a search is taken: it is unless every trial overshot, or only some did and the planned size
    misses the budget by more than one percent. -/
def accept (overshoots : Nat) (total : δ) (available : Nat) : Attempt (Event σ δ) (Fault σ δ) Unit :=
  if overshoots = 0 then Attempt.ofLogged (.note .bitrateNotNeeded)
  else if overshoots = Search.trialCount then .stop .bitrateInfeasible .noConvergence
  else if Scalar.abs (total / Scalar.ofNat available - 1.0) > 0.01 then
    .stop .notConverged (.toleranceExceeded total (Scalar.ofNat available))
  else return

/-- Plans the quantizers of a table, and yields it with the state in which the second pass starts. -/
def plan (p : Policy σ) (st : State δ) (table : List (Record σ)) :
    Attempt (Event σ δ) (Fault σ δ) (List (Record σ) × State δ) := do
  let s := p.settings
  let st := table.foldl State.account st
  let textures : PerType δ := textureTotals table
  Attempt.ofLogged (.note (.complexity textures.intra textures.predicted textures.bidirectional))
  let available := budget δ s table.length
  if available < fixedTotal table then
    .stop .bitrateTooLow
      (.bitrateTooLow (Scalar.ofNat available) (Scalar.ofNat (fixedTotal table)))
  else
    let found ← Search.run (p.searchTrial available) (⟨table, 0.0⟩, st)
    let (t, after) := found.carried
    let bitrate : δ := Scalar.ofInt s.bitrate.toInt
    Attempt.ofLogged (.note (.bitrates s.bitrate.toInt
      (Scalar.toInt64 (t.total / (Scalar.ofNat available / bitrate)))))
    Attempt.ofLogged (.note (.averageQuantizer (averageQP δ s.quantizer t.table)))
    accept found.overshoots t.total available
    return (t.table, { after with buffer := st.buffer })

end RateControl.Policy
