-- SUMMARY: Smoothing of a quantizer curve over time, within each picture type.
import RateControl.Settings

/-! # Blur

A quantizer is replaced by a weighted mean of the quantizers of its own type nearby. The weights fall off
with the distance along a bell curve, or are all 1 for a blur of 0. -/

namespace RateControl.Blur

variable {σ δ : Type} [Scalar δ]

/-- How far the window reaches to both sides. -/
def reach [Scalar σ] (blur : σ) : Nat := (Scalar.toNat64 (blur * 4.0) ||| 1) / 2

/-- The weight at a distance. -/
def weight (blur : δ) (distance : Int) : δ :=
  if blur == 0.0 then 1.0
  else
    let d := Scalar.ofInt distance
    Scalar.exp (-d * d / (blur * blur))

/-- The first position of the window around position `i`. Positions are signed numbers of 64 bits. -/
def first (reach i : Nat) : Int64 := .ofNat i - .ofNat reach

/-- The last position of the window around position `i`. -/
def last (reach i : Nat) : Int64 := .ofNat i + .ofNat reach

/-- Whether position `j` lies in the window around position `i`. -/
def inWindow (reach i j : Nat) : Bool := first reach i ≤ .ofNat j ∧ .ofNat j ≤ last reach i

/-- A quantizer curve: the types of the pictures with their quantizers. -/
abbrev Curve (δ : Type) := List (PictureType × δ)

/-- The positions that the mean at position `i` of type `t` is taken over, with their quantizers. -/
def neighbours (reach : Nat) (curve : Curve δ) (t : PictureType) (i : Nat) : List (Nat × δ) :=
  curve.zipIdx.filterMap fun ((u, q), j) => if inWindow reach i j ∧ u = t then some (j, q) else none

/-- The weighted mean of quantizers around position `i`. -/
def mean (blur : δ) (i : Nat) (l : List (Nat × δ)) : δ :=
  let (total, weights) := l.foldl
    (fun (total, weights) (j, q) =>
      let w := weight blur (j - i : Int)
      (total + q * w, weights + w))
    (0.0, 0.0)
  total / weights

/-- The smoothed curve. -/
def smooth (reach : Nat) (blur : δ) (curve : Curve δ) : List δ :=
  curve.zipIdx.map fun ((t, _), i) => mean blur i (neighbours reach curve t i)

end RateControl.Blur
