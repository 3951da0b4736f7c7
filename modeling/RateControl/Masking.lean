-- SUMMARY: How the lambda of a picture is spread over its macroblocks.
import RateControl.Settings

/-! # Masking

Noise shows less in some macroblocks than in others. Each macroblock gets a share of bits from its
complexity and from what masks it, and its lambda is the picture's lambda times complexity over bits. -/

namespace RateControl

/-- Statistics of the macroblocks of a picture, line by line from the top. -/
structure Macroblocks where
  /-- Width and height of the picture, in macroblocks. -/
  width : Nat
  height : Nat
  variance : List Nat
  /-- The motion-compensated variances. -/
  mcVariance : List Nat
  /-- The mean luminances. -/
  mean : List UInt8
  /-- Which macroblocks are intra candidates. -/
  intra : List Bool

/-- The statistics of one macroblock. -/
structure Macroblock where
  variance : Nat
  mcVariance : Nat
  mean : UInt8
  intra : Bool
deriving DecidableEq

namespace Macroblocks

/-- The number of macroblocks with all four statistics. -/
def size (m : Macroblocks) : Nat :=
  min (min (min m.variance.length m.mcVariance.length) m.mean.length) m.intra.length

/-- The macroblocks with all four statistics. -/
def toList (m : Macroblocks) : List Macroblock :=
  (((m.variance.zip m.mcVariance).zip m.mean).zip m.intra).map fun (((v, mc), mean), intra) =>
    ⟨v, mc, mean, intra⟩

@[simp] theorem length_toList (m : Macroblocks) : m.toList.length = m.size := by
  simp [toList, size]

end Macroblocks

/-- The complexity of a macroblock and the bits that it gets, in one unit. -/
structure Share (σ : Type) where
  complexity : σ
  bits : σ

namespace MaskingSettings

variable {σ : Type} [Scalar σ]

-- ---------------------------------------------------------------------------
-- Shares
-- ---------------------------------------------------------------------------

/-- How far a position lies in the outer fifth of an axis: 0 at the inner edge of the fifth, 1 at the
    first position of the axis. -/
def borderDistance (position length : Nat) : σ :=
  let margin := length / 5
  if margin = 0 then 0.0
  else if position < margin then Scalar.ofNat (margin - position) / Scalar.ofNat margin
  else if 4 * length / 5 < position then
    Scalar.ofNat (position - 4 * length / 5) / Scalar.ofNat margin
  else 0.0

/-- How near the macroblock with this index is to the border of the picture. -/
def borderNearness (width height index : Nat) : σ :=
  Scalar.max (borderDistance (index % max width 1) width)
    (borderDistance (index / max width 1) height)

/-- The square root of a variance, 4 at least. -/
def complexityOf (variance : Nat) : σ := Scalar.max (Scalar.sqrt (Scalar.ofNat variance)) 4.0

/-- What brightness leaves of the bits. -/
def luminanceFactor (s : MaskingSettings σ) (mean : UInt8) : σ :=
  let distance : Int := mean.toNat - 128
  let masking := if 127 < mean then s.luminance / (128.0 * 128.0) else s.darkness / (128.0 * 128.0)
  1.0 - Scalar.ofInt (distance * distance) * masking

/-- The share of a macroblock of which the border takes away the part `border`. -/
def share (s : MaskingSettings σ) (border : σ) (m : Macroblock) : Share σ :=
  let spatial := complexityOf m.variance
  let temporal := complexityOf m.mcVariance
  let complexity := if m.intra then spatial else temporal
  let factor := if m.intra then 1.0 + s.intra else Scalar.pow temporal (-s.temporal)
  let factor := factor * Scalar.pow spatial (-s.spatial)
  let factor := factor * s.luminanceFactor m.mean
  let factor := factor * (1.0 - s.border * border)
  let factor := if factor < 0.00001 then 0.00001 else factor
  ⟨complexity, complexity * factor⟩

/-- The shares of all macroblocks. -/
def shares (s : MaskingSettings σ) (m : Macroblocks) : List (Share σ) :=
  m.toList.zipIdx.map fun (b, i) => s.share (borderNearness m.width m.height i) b

-- ---------------------------------------------------------------------------
-- Normalization
-- ---------------------------------------------------------------------------

/-- The sums of complexities and bits. -/
def total (l : List (Share σ)) : Share σ :=
  l.foldl (fun t x => ⟨t.complexity + x.complexity, t.bits + x.bits⟩) ⟨0.0, 0.0⟩

/-- The sums without a macroblock whose lambda `lambda` lies outside the range. Its complexity stays in
    as far as the end of the range serves it. -/
def withoutClipped (s : MaskingSettings σ) (q lambda : σ) (t x : Share σ) : Share σ :=
  if lambda > Scalar.ofInt s.lmax.toInt then
    ⟨t.complexity - x.complexity * q / Scalar.ofInt s.lmax.toInt, t.bits - x.bits⟩
  else if lambda < Scalar.ofInt s.lmin.toInt then
    ⟨t.complexity - x.complexity * q / Scalar.ofInt s.lmin.toInt, t.bits - x.bits⟩
  else t

/-- The sums over the macroblocks that are not clipped, 0.001 at least. -/
def unclippedTotal (s : MaskingSettings σ) (q : σ) (l : List (Share σ)) : Share σ :=
  let t := total l
  let factor := t.bits / t.complexity
  let u := l.foldl (fun u x => s.withoutClipped q (q * x.complexity / x.bits * factor) u x) t
  ⟨Scalar.max u.complexity 0.001, Scalar.max u.bits 0.001⟩

-- ---------------------------------------------------------------------------
-- Table
-- ---------------------------------------------------------------------------

/-- A lambda rounded to the nearest whole number, within the range. -/
def rounded (s : MaskingSettings σ) (lambda : σ) : Int :=
  min (max (Scalar.toInt32 (lambda + 0.5)) s.lmin.toInt) s.lmax.toInt

/-- The lambda of a macroblock before it is rounded, with the common factor of the picture if there is
    one. -/
def lambdaOf (q : σ) (factor : Option σ) (x : Share σ) : σ :=
  match factor with
  | some f => q * x.complexity / x.bits * f
  | none   => q * x.complexity / x.bits

/-- The factor that all lambdas of a normalized picture share. -/
def commonFactor (s : MaskingSettings σ) (q : σ) (l : List (Share σ)) : Option σ :=
  if s.normalized then
    let u := s.unclippedTotal q l
    some (u.bits / u.complexity)
  else none

/-- The lambdas of the macroblocks of a picture with the lambda `q`. -/
def lambdas (s : MaskingSettings σ) (m : Macroblocks) (q : σ) : List Int :=
  let l := s.shares m
  let factor := s.commonFactor q l
  l.map fun x => s.rounded (lambdaOf q factor x)

end MaskingSettings
end RateControl
