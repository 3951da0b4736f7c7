-- SUMMARY: The quantizer curve of a whole sequence at one rate factor, and the size that it leads to.
import RateControl.Grant
import RateControl.Plan.Blur
import RateControl.Shaping
import RateControl.State

/-! # Trials

A trial lays the whole curve out at one rate factor. The rate equation grants every picture a quantizer;
the history limits the steps, from the last picture to the first, so that later pictures bind earlier
ones; the curve is blurred; and every quantizer is shaped while the decoder buffer goes along. -/

namespace RateControl

/-- A table with the plan of a trial, and the planned size of all of it in bits. -/
structure Trial (σ δ : Type) where
  table : List (Record σ)
  total : δ

namespace Policy

variable {σ δ : Type} [Scalar σ] [Scalar δ] [Precision σ δ]

/-- The quantizers that the rate equation grants. The state keeps each as the last one of its type. -/
def grantAll (p : Policy σ) (factor : δ) (st : State δ) (table : List (Record σ)) :
    Attempt (Event σ δ) (Fault σ δ) (List δ × State δ) := do
  let (qs, st) ← .fold
    (fun (qs, st) (r, i) => do
      let g ← p.grant st.sums r factor i
      let history := { st.history with last := st.history.last.set r.pictureType g.quantizer }
      return (g.quantizer :: qs, { st with history, granted := st.granted + g.value }))
    ([], st) table.zipIdx
  return (qs.reverse, st)

/-- The curve with limited steps, from the last picture to the first. -/
def limitBackwards (p : Policy σ) (h : History δ) (curve : Blur.Curve δ) : List δ × History δ :=
  curve.foldr
    (fun (t, q) (qs, h) =>
      let (q, h) := h.limit p.settings.quantizer t q
      (q :: qs, h))
    ([], h)

/-- A trial on its way: the planned records, last one first, their size, and the buffer behind them. -/
structure Layout (σ δ : Type) where
  records : List (Record σ)
  total : δ
  buffer : Buffer δ

/-- Plans the next picture for the candidate `q`. -/
def layOut (p : Policy σ) (l : Layout σ δ) (r : Record σ) (q : δ) (i : Nat) :
    Logged (Event σ δ) (Layout σ δ) := do
  let planned : σ := narrow (← p.settings.shape l.buffer r q i)
  let texture ← r.bitsAt (widen planned)
  let bits := texture + Scalar.ofInt r.motionBits.toInt + Scalar.ofInt r.miscBits.toInt
  let (stuffing, buffer) ← l.buffer.update (Scalar.toInt64 bits)
  let bits := bits + 8.0 * Scalar.ofInt stuffing
  let r := { r with plannedQuantizer := planned, plannedBits := Scalar.toNat64 l.total }
  return ⟨r :: l.records, l.total + bits, buffer⟩

/-- Plans all pictures for a curve, with a decoder buffer that is half full at the start. -/
def layOutAll (p : Policy σ) (b : Buffer δ) (table : List (Record σ)) (curve : List δ) :
    Logged (Event σ δ) (Layout σ δ) :=
  .fold (fun l ((r, q), i) => p.layOut l r q i) ⟨[], 0.0, b.halfFull⟩ (table.zip curve).zipIdx

/-- A trial at a rate factor. -/
def trial (p : Policy σ) (factor : δ) (st : State δ) (table : List (Record σ)) :
    Attempt (Event σ δ) (Fault σ δ) (Trial σ δ × State δ) := do
  let types := table.map (·.pictureType)
  let (qs, st) ← p.grantAll factor st table
  let (qs, history) := p.limitBackwards st.history (types.zip qs)
  let blur := p.settings.blur
  let curve := Blur.smooth (Blur.reach blur) (widen blur) (types.zip qs)
  let l ← Attempt.ofLogged (p.layOutAll st.buffer table curve)
  return (⟨l.records.reverse, l.total⟩, { st with history, buffer := l.buffer })

end Policy
end RateControl
