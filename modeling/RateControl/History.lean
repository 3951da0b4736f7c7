-- SUMMARY: The last quantizers of each picture type, and the limit that they put on the next one.
import RateControl.Settings

/-! # Quantizer history

I and B quantizers follow from the quantizers of the pictures that they refer to, and no quantizer goes
far from the last one of its type. -/

namespace RateControl

structure History (δ : Type) where
  /-- The last quantizer of each picture type. -/
  last : PerType δ
  /-- The type of the last picture that is not a B picture. -/
  reference : Option PictureType

namespace History

variable {σ δ : Type} [Scalar δ]

/-- The quantizer that stands for a picture type before its first picture, that of QP 5. -/
def initialQuantizer : δ := Scalar.ofInt (5 * lambdaPerQP)

def initial : History δ where
  last := .replicate initialQuantizer
  reference := none

/-- The last quantizer of a picture that is not a B picture. -/
def referenceQuantizer (h : History δ) : δ :=
  match h.reference with
  | some t => h.last.get t
  | none   => initialQuantizer

/-- Records the quantizer of a picture. -/
def record (h : History δ) (t : PictureType) (q : δ) : History δ where
  last := h.last.set t q
  reference := if t = .bidirectional then h.reference else some t

def atLeastOne (q : δ) : δ := if q < 1.0 then 1.0 else q

variable [Scalar σ] [Precision σ δ]

/-- The quantizer that follows from the last P quantizer for an I picture, and from the last quantizer
    of another type for a B picture; otherwise `q` itself. -/
def derived (h : History δ) (s : QuantizerSettings σ) (t : PictureType) (q : δ) : δ :=
  match t with
  | .intra =>
    if s.intraFactor > 0.0 ∨ h.reference = some .predicted then
      h.last.get .predicted * widen (Scalar.abs s.intraFactor) + widen s.intraOffset
    else q
  | .bidirectional =>
    if s.bidirectionalFactor > 0.0 then
      h.referenceQuantizer * widen s.bidirectionalFactor + widen s.bidirectionalOffset
    else q
  | _ => q

/-- The greatest step between two quantizers of a type. -/
def maxStep (s : QuantizerSettings σ) : δ :=
  Scalar.ofInt lambdaPerQP * Scalar.ofInt s.maxStep.toInt

/-- The quantizer, at most `step` away from the last one. -/
def stepped (last step q : δ) : δ :=
  if q > last + step then last + step
  else if q < last - step then last - step
  else q

/-- The quantizer of the next picture, and the history with it. An I picture may step freely where the
    last picture that is not a B picture had another type. -/
def limit (h : History δ) (s : QuantizerSettings σ) (t : PictureType) (q : δ) : δ × History δ :=
  let q := atLeastOne (h.derived s t q)
  let q := if h.reference = some t ∨ t ≠ .intra then stepped (h.last.get t) (maxStep s) q else q
  (q, h.record t q)

end History
end RateControl
