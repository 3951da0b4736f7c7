-- SUMMARY: The steps that a session can be asked for, their answers, and runs of steps.
import RateControl.Session

/-! # Steps

Everything that a session can be asked for, as data. A run performs steps one after the other on one
session, past steps that answer a fault. -/

namespace RateControl

/-- What there is to know about a session at a glance. -/
structure Overview (δ : Type) where
  isSecondPass : Bool
  entries : Nat
  occupancy : δ

namespace Overview

/-- The overview as text. -/
def text (o : Overview Float) : String :=
  s!"Context \x7b second_pass: {o.isSecondPass}, entries: {o.entries}, " ++
  s!"buffer_index: {markedText o.occupancy} \x7d"

end Overview

inductive Step where
  | estimate (frame : Frame) (dryRun : Bool)
  | drain (bits : Int64)
  | occupancy
  | motionCodes (entry : Nat)
  | record (entry : Nat)
  | plan
  | overview

namespace Step

/-- Whether the step only asks. -/
def isQuery : Step → Bool
  | .estimate _ _ => false
  | .drain _      => false
  | _             => true

end Step

inductive Answer (σ δ : Type) where
  | decision (result : Except (Fault σ δ) (Decision σ))
  /-- The stuffing bytes of a coded picture, and the bits in the buffer behind it. -/
  | stuffing (bytes : Int) (occupancy : δ)
  | occupancy (bits : δ)
  | motionCodes (codes : Option (Int32 × Int32))
  | record (r : Option (Record σ))
  | plan (isSecondPass : Bool) (table : List (Record σ))
  | overview (o : Overview δ) (settings : Settings σ)

namespace Session

variable {σ δ : Type}

def overview (s : Session σ δ) : Overview δ where
  isSecondPass := s.isSecondPass
  entries := s.table.length
  occupancy := s.occupancy

variable [Scalar σ] [Scalar δ] [Precision σ δ]

/-- Performs a step. -/
def perform (s : Session σ δ) : Step → Logged (Event σ δ) (Answer σ δ × Session σ δ)
  | .estimate f dryRun => do
    let (result, s) ← s.estimate f dryRun
    return (.decision result, s)
  | .drain bits        => do
    let (bytes, s) ← s.drain bits
    return (.stuffing bytes s.occupancy, s)
  | .occupancy         => return (.occupancy s.occupancy, s)
  | .motionCodes n     => return (.motionCodes (s.motionCodes? n), s)
  | .record n          => return (.record (s.record? n), s)
  | .plan              => return (.plan s.isSecondPass s.table, s)
  | .overview          => return (.overview s.overview s.policy.settings, s)

/-- Performs steps one after the other. Yields the answer to each with its events, and the session
    behind them. -/
def run (s : Session σ δ) : List Step → List (Logged (Event σ δ) (Answer σ δ)) × Session σ δ
  | []           => ([], s)
  | step :: rest =>
    let x := s.perform step
    let (answers, after) := run x.value.2 rest
    (⟨x.value.1, x.trail⟩ :: answers, after)

end Session
end RateControl
