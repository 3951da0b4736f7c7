-- SUMMARY: What rate control reports while it works: events as data, with their severity and their text.
import RateControl.Fault

/-! # Events

Log messages are kept as data until somebody reads them. An event has a severity and, at the binary
number types, a text. -/

namespace RateControl

/-- How severe an event is, most severe first. -/
inductive Level where
  | error
  | warn
  | info
  | debug
  | trace
deriving DecidableEq

namespace Level

def rank : Level → Nat
  | error => 0
  | warn  => 1
  | info  => 2
  | debug => 3
  | trace => 4

def name : Level → String
  | error => "error"
  | warn  => "warn"
  | info  => "info"
  | debug => "debug"
  | trace => "trace"

/-- The level with this name. -/
def ofName? (s : String) : Option Level :=
  [error, warn, info, debug, trace].find? (·.name == s)

end Level

/-- The figures of one estimate. -/
structure EstimateReport (δ : Type) where
  pictureType : PictureType
  qmin : Int
  quantizer : δ
  qmax : Int
  picture : Nat
  wantedBits : Int
  totalBits : Int
  compensation : δ
  shortTerm : δ
  lastBits : Int
  varSum : Int
  mcVarSum : Int
  bitrate : Int
  frameRate : δ

inductive Event (σ δ : Type) where
  /-- Something stops with this fault. -/
  | fault (f : Fault σ δ)
  /-- A size is asked for at a quantizer that is not positive. -/
  | quantizerNotPositive
  /-- A quantizer is asked for less than 0.9 bits. -/
  | tooFewBits
  | underflow
  | stuffing (bytes : Int)
  /-- The buffer replaces a quantizer by its limit. -/
  | limiting (quantizer limit : δ)
  | pictureNotPlanned (picture : Nat)
  /-- A picture is coded as another type than planned. -/
  | typeMismatch (picture : Nat) (coded planned : PictureType)
  | estimate (report : EstimateReport δ)
  /-- A picture is to be masked but comes without macroblocks. -/
  | maskingSkipped (picture : Nat)
  | complexity (intra predicted bidirectional : δ)
  | bitrateTooLow
  /-- A trial of the rate factor search. -/
  | trial (expected : δ) (available : Nat) (factor : δ)
  | bitrates (requested expected : Int)
  | averageQuantizer (q : δ)
  | bitrateNotNeeded
  | bitrateInfeasible
  | notConverged

namespace Event

variable {σ δ : Type}

def level : Event σ δ → Level
  | fault _            => .error
  | quantizerNotPositive => .error
  | tooFewBits         => .error
  | underflow          => .warn
  | stuffing _         => .debug
  | limiting _ _       => .debug
  | pictureNotPlanned _ => .error
  | typeMismatch _ _ _ => .warn
  | estimate _         => .debug
  | maskingSkipped _   => .warn
  | complexity _ _ _   => .debug
  | bitrateTooLow      => .error
  | trial _ _ _        => .trace
  | bitrates _ _       => .debug
  | averageQuantizer _ => .debug
  | bitrateNotNeeded   => .info
  | bitrateInfeasible  => .error
  | notConverged       => .error

/-- The figures of an estimate on one line. -/
def reportText (r : EstimateReport Float) : String :=
  s!"{r.pictureType.letter} qp:{r.qmin}<{fixedText 1 r.quantizer}<{r.qmax} {r.picture} " ++
  s!"want:{r.wantedBits.tdiv 1000} total:{r.totalBits.tdiv 1000} " ++
  s!"comp:{plainText r.compensation} st_q:{fixedText 2 r.shortTerm} size:{r.lastBits} " ++
  s!"var:{r.varSum}/{r.mcVarSum} br:{r.bitrate.tdiv 1000} fps:{Scalar.toInt32 r.frameRate}"

/-- The text of an event. -/
def text : Event Float32 Float → String
  | fault f              => f.message
  | quantizerNotPositive => "qp<=0.0"
  | tooFewBits           => "bits<0.9"
  | underflow            => "rc buffer underflow"
  | stuffing n           => s!"stuffing {n} bytes"
  | limiting q l         => s!"limiting QP {plainText q} -> {plainText l}"
  | pictureNotPlanned n  => s!"picture {n} is not in the stats log"
  | typeMismatch n c p   => s!"picture {n} coded as {c.letter} but planned as {p.letter}"
  | estimate r           => reportText r
  | maskingSkipped n     =>
    s!"no macroblock statistics for picture {n}, adaptive quantization skipped"
  | complexity i p b     => s!"complexity I:{fixedText 0 i} P:{fixedText 0 p} B:{fixedText 0 b}"
  | bitrateTooLow        => "requested bitrate is too low"
  | trial e a f          =>
    s!"expected_bits: {plainText e} all_available_bits: {a} rate_factor: {plainText f}"
  | bitrates r e         => s!"requested bitrate: {r} bps expected bitrate: {e} bps"
  | averageQuantizer q   => s!"estimated target average qp: {fixedText 3 q}"
  | bitrateNotNeeded     =>
    "Using all of requested bitrate is not necessary for this video with these parameters."
  | bitrateInfeasible    => "Error: bitrate too low for this video with these parameters."
  | notConverged         => "Error: 2pass curve failed to converge"

end Event

/-- The events that are at least as severe as `level`, each as its level's name and its text. -/
def logLines (level : Level) (events : List (Event Float32 Float)) : List String :=
  (events.filter fun e => e.level.rank ≤ level.rank).map fun e => e.level.name ++ " " ++ e.text

end RateControl
