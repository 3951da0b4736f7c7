-- SUMMARY: What makes settings unusable, in the order in which it is reported.
import RateControl.Settings

/-! # Validation

Settings are checked before anything is built from them. The first violation, in the order of the
list, is the one that is reported. -/

namespace RateControl

/-- Why settings were rejected. -/
inductive InvalidSetting (σ : Type) where
  | frameRateNum (actual : Nat)
  | frameRateDen (actual : Nat)
  | bitrate (actual : Int64)
  | tolerance (actual : Int32)
  | macroblockGrid (width height : Nat)
  | quantizerRange (qmin qmax : Int32)
  | lambdaRange (lmin lmax : Int32)
  | maxStep (actual : Int32)
  | blurTooLarge (actual : σ)
  | blur (actual : σ)
  | compression (actual : σ)
  | bufferSize (actual : Int32)
  | initialOccupancy (actual limit : Int32)
  | channelRates (minRate maxRate : Int64)
  | aggressivity (actual : σ)
  | gopSize (actual : Nat)

/-- The greatest numerator and denominator of a time base. -/
def timeBaseMax : Nat := 4294967295

namespace InvalidSetting

/-- The text of a violation. -/
def message : InvalidSetting Float32 → String
  | frameRateNum n       => s!"invalid framerate numerator {n} (expected > 0, <= {timeBaseMax})"
  | frameRateDen n       => s!"invalid framerate denominator {n} (expected > 0, <= {timeBaseMax})"
  | bitrate n            => s!"invalid bitrate {n.toInt} (expected > 0)"
  | tolerance n          => s!"invalid bitrate tolerance {n.toInt} (expected > 0)"
  | macroblockGrid w h   => s!"invalid macroblock grid {w}x{h} (expected non-empty)"
  | quantizerRange a b   =>
    s!"invalid quantizer range {a.toInt}..={b.toInt} (expected 1 <= min <= max)"
  | lambdaRange a b      =>
    s!"invalid lambda range {a.toInt}..={b.toInt} (expected 1 <= min <= max <= {lambdaMax})"
  | maxStep n            => s!"invalid max qdiff {n.toInt} (expected >= 0)"
  | blurTooLarge x       => s!"qblur too large: {plainText x} (expected <= 1.0)"
  | blur x               => s!"invalid qblur {plainText x} (expected a finite value >= 0.0)"
  | compression x        => s!"invalid qcompress {plainText x} (expected a finite value)"
  | bufferSize n         => s!"invalid rc buffer size {n.toInt} (expected >= 0)"
  | initialOccupancy n m => s!"invalid initial buffer occupancy {n.toInt} (expected <= {m.toInt})"
  | channelRates a b     => s!"invalid vbv rates: min {a.toInt} exceeds max {b.toInt}"
  | aggressivity x       => s!"invalid buffer aggressivity {plainText x} (expected finite > 0.0)"
  | gopSize n            => s!"invalid gop size {n} (expected > 0)"

end InvalidSetting

namespace Settings

variable {σ : Type} [Scalar σ]

/-- A condition that settings must not meet, with the violation that it is. -/
abbrev Rule (σ : Type) := Bool × InvalidSetting σ

def streamRules (s : Settings σ) : List (Rule σ) :=
  [(s.timeBase.num = 0 ∨ timeBaseMax < s.timeBase.num, .frameRateNum s.timeBase.num),
   (s.timeBase.den = 0 ∨ timeBaseMax < s.timeBase.den, .frameRateDen s.timeBase.den),
   (s.bitrate ≤ 0, .bitrate s.bitrate),
   (s.tolerance ≤ 0, .tolerance s.tolerance),
   (s.mbWidth = 0 ∨ s.mbHeight = 0, .macroblockGrid s.mbWidth s.mbHeight),
   (s.gopSize = 0, .gopSize s.gopSize)]

def lambdaRule (lmin lmax : Int32) : Rule σ :=
  (lmin < 1 ∨ lmax < lmin ∨ lambdaMax < lmax.toInt, .lambdaRange lmin lmax)

def quantizerRules (s : Settings σ) : List (Rule σ) :=
  let q := s.quantizer
  [(q.qmin < 1 ∨ q.qmax < q.qmin, .quantizerRange q.qmin q.qmax),
   lambdaRule q.lmin q.lmax,
   (q.maxStep < 0, .maxStep q.maxStep)]

def maskingRules (s : Settings σ) : List (Rule σ) :=
  match s.masking with
  | some a => [lambdaRule a.lmin a.lmax]
  | none   => []

/-- A single pass smooths with a leaky integrator, which takes a blur of at most 1; the windowed blur
    of a second pass takes any. -/
def curveRules (s : Settings σ) (secondPass : Bool) : List (Rule σ) :=
  [(!Scalar.isFinite s.compression, .compression s.compression),
   (!Scalar.isFinite s.blur || s.blur < 0.0, .blur s.blur),
   (!secondPass && s.blur > 1.0, .blurTooLarge s.blur)]

def bufferRules (s : Settings σ) : List (Rule σ) :=
  [(s.bufferSize < 0, .bufferSize s.bufferSize),
   (s.bufferSize < s.initialOccupancy, .initialOccupancy s.initialOccupancy s.bufferSize),
   (s.minRate < 0 ∨ s.maxRate < 0 ∨ s.maxRate < s.minRate, .channelRates s.minRate s.maxRate),
   (!Scalar.isFinite s.aggressivity || s.aggressivity ≤ 0.0, .aggressivity s.aggressivity)]

def rules (s : Settings σ) (secondPass : Bool) : List (Rule σ) :=
  s.streamRules ++ s.quantizerRules ++ s.maskingRules ++ s.curveRules secondPass ++ s.bufferRules

/-- The first violation, if there is one. -/
def violation? (s : Settings σ) (secondPass : Bool) : Option (InvalidSetting σ) :=
  ((s.rules secondPass).find? (·.1)).map (·.2)

end Settings
end RateControl
