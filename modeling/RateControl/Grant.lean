-- SUMMARY: The quantizer that the rate equation grants a picture, under the directives of the user.
import RateControl.History
import RateControl.Policy

/-! # Granted quantizers

The value of the rate equation times a rate factor gives the bits of a picture, and the bits give the
quantizer. Directives change the bits, and I and B pictures may have a factor and offset of their own. -/

namespace RateControl

/-- The value of the rate equation for a picture, and the quantizer that follows from it. -/
structure Grant (δ : Type) where
  value : δ
  quantizer : δ

namespace Policy

variable {σ δ : Type} [Scalar δ] [Precision σ δ]

/-- The bits for a value of the equation, one bit added. -/
def scaledBits (value factor : δ) : δ :=
  let bits := value * factor
  (if bits < 0.0 then 0.0 else bits) + 1.0

/-- What a directive makes of the bits. -/
def direct (r : Record σ) (bits : δ) (d : Directive σ) : Logged (Event σ δ) δ :=
  match d.action with
  | .force q      => r.bitsAt (Scalar.ofInt q.toInt)
  | .scale factor => return bits * widen factor

/-- What all directives for a picture make of the bits, one after the other. -/
def directAll (p : Policy σ) (r : Record σ) (picture : Nat) (bits : δ) : Logged (Event σ δ) δ :=
  .fold (direct r) bits (p.directives.filter (·.contains picture))

/-- A quantizer under the factor and offset of an I or B picture whose factor is negative. -/
def offsetAlone [Scalar σ] (s : QuantizerSettings σ) (t : PictureType) (q : δ) : δ :=
  match s.factorOffset t with
  | some (f, o) => if f < 0.0 then -q * widen f + widen o else q
  | none        => q

/-- The quantizer that the rate equation grants at a rate factor. -/
def grant [Scalar σ] (p : Policy σ) (sums : PerType (Sums δ)) (r : Record σ) (factor : δ)
    (picture : Nat) : Attempt (Event σ δ) (Fault σ δ) (Grant δ) := do
  let value ← Attempt.ofLogged (p.equation.eval (p.symbolValue sums r) r)
  if Scalar.isNaN value then
    let fault := .equationNaN p.equation.source
    .stop (.fault fault) fault
  else
    let bits ← Attempt.ofLogged (p.directAll r picture (scaledBits value factor))
    let q ← Attempt.ofLogged (r.quantizerFor bits)
    return ⟨value, History.atLeastOne (offsetAlone p.settings.quantizer r.pictureType q)⟩

end Policy
end RateControl
