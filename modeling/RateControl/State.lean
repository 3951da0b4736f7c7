-- SUMMARY: Everything about a sequence that changes while it is coded.
import RateControl.DecoderBuffer
import RateControl.History
import RateControl.SizeModel
import RateControl.Sums

/-! # State

The state of the control between two pictures. -/

namespace RateControl

/-- An average in which the past leaks away: a weighted sum, and the sum of the weights. -/
structure LeakyAverage (δ : Type) where
  sum : δ
  count : δ

namespace LeakyAverage

variable {δ : Type} [Scalar δ]

/-- One more value. What was there keeps the share `keep`. -/
def add (a : LeakyAverage δ) (keep x : δ) : LeakyAverage δ :=
  ⟨a.sum * keep + x, a.count * keep + 1.0⟩

def value (a : LeakyAverage δ) : δ := a.sum / a.count

end LeakyAverage

/-- What is kept of the picture before. -/
structure LastPicture (δ : Type) where
  quantizer : δ
  varSum : Int64
  mcVarSum : Int64

namespace LastPicture

variable {δ : Type}

/-- The variance that says how complex a picture of this type was. -/
def varianceFor (p : LastPicture δ) (t : PictureType) : Int64 :=
  if t = .intra then p.varSum else p.mcVarSum

end LastPicture

structure State (δ : Type) where
  models : PerType (SizeModel δ)
  sums : PerType (Sums δ)
  history : History δ
  buffer : Buffer δ
  /-- The average of the P quantizers of a single pass. -/
  average : LeakyAverage δ
  /-- The sum of the values of the rate equation. -/
  granted : δ
  /-- The sum of the picture sizes that the bitrate asks for. -/
  wanted : δ
  last : LastPicture δ

namespace State

variable {σ δ : Type} [Scalar δ]

def initial (s : Settings σ) : State δ where
  models := .replicate .standard
  sums := .replicate .initial
  history := .initial
  buffer := .ofSettings s
  average := ⟨0.0, 0.0⟩
  granted := 0.0
  wanted := 0.0
  last := ⟨0.0, 0, 0⟩

/-- The initial state of a single pass, in which no quotient divides by zero. -/
def seeded (s : Settings σ) : State δ :=
  { initial s with average := ⟨0.001, 0.001⟩, granted := 0.001, wanted := 0.001 }

/-- Adds a picture to the sums of its type. -/
def account [Precision σ δ] (st : State δ) (r : Record σ) : State δ :=
  { st with sums := st.sums.modify r.pictureType (·.add r) }

/-- Takes in the size of the last picture, which had the type `t`. -/
def learn (st : State δ) (t : PictureType) (bits : Int) : State δ :=
  let complexity := Scalar.sqrt (Scalar.ofInt (st.last.varianceFor t).toInt)
  { st with
    models := st.models.modify t (·.update st.last.quantizer complexity (Scalar.ofInt bits)) }

end State
end RateControl
