-- SUMMARY: Every macroblock has a lambda in the range, made from its own statistics and at most one factor that the whole picture shares.
import RateControl.Proofs.Masking.Normalization
import RateControl.Binary

/-! # Local lambdas

A picture gives four lists of statistics, which may end at different places. A macroblock is described as far as
all four go, and gets its share from its own statistics and its place in the grid. Where lambdas are normalized,
sums over the picture come in, but in one place only: as the factor that all of its lambdas are multiplied by. -/

namespace RateControl

namespace Macroblocks

/-- The pictures have the same grid, and the same statistics at the position `i`, as far as there are any. -/
structure SameAt (i : Nat) (m n : Macroblocks) : Prop where
  width : n.width = m.width
  height : n.height = m.height
  variance : n.variance[i]? = m.variance[i]?
  mcVariance : n.mcVariance[i]? = m.mcVariance[i]?
  mean : n.mean[i]? = m.mean[i]?
  intra : n.intra[i]? = m.intra[i]?

/-- Lists of different lengths that are read side by side are read position by position. -/
theorem SameAt.toList {i : Nat} {m n : Macroblocks} (h : SameAt i m n) : n.toList[i]? = m.toList[i]? := by
  simp only [Macroblocks.toList, List.getElem?_map, List.zip_eq_zipWith, List.getElem?_zipWith, h.variance,
    h.mcVariance, h.mean, h.intra]

end Macroblocks

namespace MaskingSettings

variable {σ : Type} [Scalar σ]

/-- The lambda of a macroblock from its own statistics and its index in a grid. -/
def ownLambda (s : MaskingSettings σ) (q : σ) (width height index : Nat) (b : Macroblock) : σ :=
  let x := s.share (borderNearness width height index) b
  q * x.complexity / x.bits

/-- A lambda ends up in the range, whatever it was before it was rounded, NaN among others. -/
theorem rounded_bounds {s : MaskingSettings σ} (hrange : s.lmin ≤ s.lmax) (lambda : σ) :
    s.lmin.toInt ≤ s.rounded lambda ∧ s.rounded lambda ≤ s.lmax.toInt := by
  rw [Int32.le_iff_toInt_le] at hrange
  exact ⟨Int.le_min.2 ⟨Int.le_max_right _ _, hrange⟩, Int.min_le_right _ _⟩

theorem getElem?_shares (s : MaskingSettings σ) (m : Macroblocks) (i : Nat) :
    (s.shares m)[i]? = m.toList[i]?.map (s.share (borderNearness m.width m.height i)) := by
  simp only [shares, List.getElem?_map, List.getElem?_zipIdx, Option.map_map, Nat.zero_add]
  rfl

theorem getElem?_lambdas (s : MaskingSettings σ) (m : Macroblocks) (q : σ) (i : Nat) :
    (s.lambdas m q)[i]? = m.toList[i]?.map fun b =>
      s.rounded (lambdaOf q (s.commonFactor q (s.shares m)) (s.share (borderNearness m.width m.height i) b)) := by
  simp only [lambdas, List.getElem?_map, getElem?_shares, Option.map_map]
  rfl

theorem commonFactor_of_not_normalized {s : MaskingSettings σ} (h : s.normalized = false) (q : σ)
    (l : List (Share σ)) : s.commonFactor q l = none := by
  simp [commonFactor, h]

theorem commonFactor_of_normalized {s : MaskingSettings σ} (h : s.normalized = true) (q : σ)
    (l : List (Share σ)) :
    s.commonFactor q l = some ((s.unclippedTotal q l).bits / (s.unclippedTotal q l).complexity) := by
  simp [commonFactor, h]

/-- The same statistics in the same place give the same lambda, if pictures that are normalized have the same
    common factor. -/
theorem getElem?_lambdas_congr {s : MaskingSettings σ} {m n : Macroblocks} {q : σ} {i : Nat} (h : m.SameAt i n)
    (hcommon : s.normalized = true → s.commonFactor q (s.shares n) = s.commonFactor q (s.shares m)) :
    (s.lambdas n q)[i]? = (s.lambdas m q)[i]? := by
  have hcommon : s.commonFactor q (s.shares n) = s.commonFactor q (s.shares m) := by
    cases hs : s.normalized with
    | true => exact hcommon hs
    | false => rw [commonFactor_of_not_normalized hs, commonFactor_of_not_normalized hs]
  rw [getElem?_lambdas, getElem?_lambdas, hcommon, h.toList, h.width, h.height]

/-- A table has a lambda in the range for each macroblock that is described. It is the macroblock's own lambda,
    from its statistics and its place, or, if lambdas are normalized, that times one factor for the whole
    picture. So macroblocks can be changed, added or taken away elsewhere without any effect on it but through
    this factor. -/
theorem lambdas_local {s : MaskingSettings σ} (hrange : s.lmin ≤ s.lmax) (q : σ) (m : Macroblocks) :
    (s.lambdas m q).length = m.size ∧ (∀ x ∈ s.lambdas m q, s.lmin.toInt ≤ x ∧ x ≤ s.lmax.toInt) ∧
    (s.normalized = false → ∀ i, (s.lambdas m q)[i]? =
      m.toList[i]?.map fun b => s.rounded (s.ownLambda q m.width m.height i b)) ∧
    (s.normalized = true → ∃ factor, s.commonFactor q (s.shares m) = some factor ∧ ∀ i, (s.lambdas m q)[i]? =
      m.toList[i]?.map fun b => s.rounded (s.ownLambda q m.width m.height i b * factor)) ∧
    ∀ n i, m.SameAt i n →
      (s.normalized = true → s.commonFactor q (s.shares n) = s.commonFactor q (s.shares m)) →
      (s.lambdas n q)[i]? = (s.lambdas m q)[i]? := by
  refine ⟨by simp [lambdas, shares], fun x hx => ?_, fun hs i => ?_, fun hs => ?_,
    fun n i hsame hcommon => getElem?_lambdas_congr hsame hcommon⟩
  · obtain ⟨y, -, rfl⟩ := List.mem_map.1 hx
    exact rounded_bounds hrange _
  · rw [getElem?_lambdas, commonFactor_of_not_normalized hs]
    rfl
  · refine ⟨_, commonFactor_of_normalized hs q _, fun i => ?_⟩
    rw [getElem?_lambdas, commonFactor_of_normalized hs]
    rfl

open scoped Exact in
/-- A bright macroblock and a dark one. The dark one keeps its lambda while the first one is changed and more are
    added behind: for a quantizer that is NaN, for one inside the range, and in a normalized picture, there under a
    change of variance that is too small to bear on the common factor. -/
theorem lambdas_local_two_macroblocks :
    let plain : MaskingSettings Float32 := neutral
    let nan : Float32 := 0.0 / 0.0
    let dark : MaskingSettings ℝ := { neutral with darkness := 1 / 2 }
    let normalized : MaskingSettings ℝ := { dark with normalized := true }
    let m : Macroblocks := ⟨3, 1, [0, 0, 25], [0, 0, 100, 100], [128, 0], [true, false]⟩
    let changed : Macroblocks := ⟨3, 1, [400, 0, 4, 49], [900, 0, 9], [50, 0, 7, 9], [false, false, true]⟩
    let varied : Macroblocks := ⟨3, 1, [9, 0, 4, 49], [900, 0, 9], [128, 0, 7, 9], [true, false]⟩
    Scalar.isNaN nan = true ∧ (∀ x ∈ plain.lambdas m nan, 236 ≤ x ∧ x ≤ 3658) ∧
      (plain.lambdas changed nan)[1]? = (plain.lambdas m nan)[1]? ∧
      (dark.lambdas m 1000)[1]? = some 2000 ∧ (dark.lambdas changed 1000)[1]? = some 2000 ∧
      (normalized.lambdas m 1000).length = 2 ∧ (normalized.lambdas m 1000)[1]? = some 1500 ∧
      (normalized.lambdas varied 1000)[1]? = some 1500 := by
  intro plain nan dark normalized m changed varied
  have hpow : (Scalar.pow 4 0 : ℝ) = 1 := Real.rpow_zero 4
  have hdark (border : ℝ) : dark.share border ⟨0, 0, 0, false⟩ = ⟨4, 2⟩ := by
    have hluminance : dark.luminanceFactor 0 = 1 / 2 := by norm_num [luminanceFactor, dark]
    simp only [share, complexityOf_of_le (Nat.zero_le 16), hluminance]
    norm_num [dark, neutral, hpow]
  have hbright (border : ℝ) {variance mcVariance : Nat} (h : variance ≤ 16) :
      dark.share border ⟨variance, mcVariance, 128, true⟩ = ⟨4, 4⟩ := by
    have hmiddle : (128 : UInt8).toNat = 128 := rfl
    have hluminance : dark.luminanceFactor 128 = 1 := by norm_num [luminanceFactor, hmiddle, dark]
    simp only [share, complexityOf_of_le h, hluminance]
    norm_num [dark, neutral, hpow]
  have hshares : normalized.shares m = [⟨4, 4⟩, ⟨4, 2⟩] ∧ normalized.shares varied = [⟨4, 4⟩, ⟨4, 2⟩] := by
    have hsame (border : ℝ) (b : Macroblock) : normalized.share border b = dark.share border b := rfl
    simp [shares, Macroblocks.toList, m, varied, hsame, hdark, hbright]
  have hends : normalized.lmin.toInt = 236 ∧ normalized.lmax.toInt = 3658 := ⟨rfl, rfl⟩
  have hfactor : normalized.commonFactor 1000 (normalized.shares m) = some (3 / 4) := by
    rw [hshares.1, commonFactor_of_normalized rfl]
    simp only [unclippedTotal, total, withoutClipped, List.foldl, Exact.ofInt_eq, hends, Exact.max_eq]
    norm_num
  have hrounded : dark.rounded 2000 = 2000 ∧ normalized.rounded 1500 = 1500 := by
    have hends' : dark.lmin.toInt = 236 ∧ dark.lmax.toInt = 3658 := ⟨rfl, rfl⟩
    have hfloor : ⌊(2000 + 0.5 : ℝ)⌋ = 2000 ∧ ⌊(1500 + 0.5 : ℝ)⌋ = 1500 := by norm_num
    simp only [rounded, Scalar.toInt32, Scalar.truncate, hends, hends', hfloor]
    norm_num
  obtain ⟨-, hbounds, -, -, hplain⟩ := lambdas_local (s := plain) (by decide) nan m
  obtain ⟨-, -, hown, -, hdarkLocal⟩ := lambdas_local (s := dark) (by decide) 1000 m
  obtain ⟨hlength, -, -, hcommon, hnormalized⟩ := lambdas_local (s := normalized) (by decide) 1000 m
  obtain ⟨factor, heq, hscaled⟩ := hcommon rfl
  obtain rfl : factor = 3 / 4 := Option.some.inj (heq.symm.trans hfactor)
  have hlambda : dark.ownLambda 1000 3 1 1 ⟨0, 0, 0, false⟩ = 2000 := by
    simp only [ownLambda, hdark]
    norm_num
  have htwice : (dark.lambdas m 1000)[1]? = some 2000 :=
    calc
      (dark.lambdas m 1000)[1]? = some (dark.rounded (dark.ownLambda 1000 3 1 1 ⟨0, 0, 0, false⟩)) := hown rfl 1
      _ = some 2000 := by rw [hlambda, hrounded.1]
  have hthree : (normalized.lambdas m 1000)[1]? = some 1500 :=
    calc
      (normalized.lambdas m 1000)[1]? =
          some (normalized.rounded (dark.ownLambda 1000 3 1 1 ⟨0, 0, 0, false⟩ * (3 / 4))) := hscaled 1
      _ = some (normalized.rounded 1500) := by
        rw [hlambda]
        norm_num
      _ = some 1500 := by rw [hrounded.2]
  refine ⟨by decide +kernel, hbounds, hplain changed 1 ⟨rfl, rfl, rfl, rfl, rfl, rfl⟩ fun h => absurd h (by decide),
    htwice, ?_, hlength, hthree, ?_⟩
  · exact (hdarkLocal changed 1 ⟨rfl, rfl, rfl, rfl, rfl, rfl⟩ fun h => absurd h (by decide)).trans htwice
  · refine (hnormalized varied 1 ⟨rfl, rfl, rfl, rfl, rfl, rfl⟩ fun _ => ?_).trans hthree
    rw [hshares.1, hshares.2]

end MaskingSettings
end RateControl
