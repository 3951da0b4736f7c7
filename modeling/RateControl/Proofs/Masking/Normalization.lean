-- SUMMARY: Normalization gives the macroblocks that are not clipped what keeps the size of the picture.
import RateControl.Proofs.Exact
import RateControl.Masking

/-! # Normalized lambdas

At a lambda, a macroblock takes bits in proportion to its complexity over that lambda. The picture is to take
as many as if every macroblock had the picture's lambda. Normalization first estimates all lambdas from sums
over the whole picture. What passes an end of the range is served at that end, and the rest of the complexity
is shared out among the others, in proportion to their bits. -/

namespace RateControl.MaskingSettings

-- ---------------------------------------------------------------------------
-- Two rounds of lambdas
-- ---------------------------------------------------------------------------

section Rounds

variable {σ : Type} [Scalar σ]

/-- The first lambda of a macroblock, from the sums over all macroblocks of the picture. -/
def firstLambda (q : σ) (l : List (Share σ)) (x : Share σ) : σ :=
  q * x.complexity / x.bits * ((total l).bits / (total l).complexity)

/-- The sums over the macroblocks that are not clipped, however small. -/
def correctedTotal (s : MaskingSettings σ) (q : σ) (l : List (Share σ)) : Share σ :=
  l.foldl (fun u x => s.withoutClipped q (firstLambda q l x) u x) (total l)

/-- What one macroblock leaves in the corrected sums. -/
def remainder (s : MaskingSettings σ) (q : σ) (l : List (Share σ)) (x : Share σ) : Share σ :=
  s.withoutClipped q (firstLambda q l x) x x

/-- The lambda at which a macroblock is served: an end of the range if its first lambda passes that end, and
    otherwise the lambda that normalization arrives at. -/
def settledLambda (s : MaskingSettings σ) (q : σ) (l : List (Share σ)) (x : Share σ) : σ :=
  if firstLambda q l x > Scalar.ofInt s.lmax.toInt then Scalar.ofInt s.lmax.toInt
  else if firstLambda q l x < Scalar.ofInt s.lmin.toInt then Scalar.ofInt s.lmin.toInt
  else lambdaOf q (s.commonFactor q l) x

end Rounds

open scoped Exact

variable {s : MaskingSettings ℝ} {q : ℝ} {l : List (Share ℝ)} {x : Share ℝ}

-- ---------------------------------------------------------------------------
-- Shares
-- ---------------------------------------------------------------------------

theorem complexityOf_pos (variance : Nat) : (0 : ℝ) < complexityOf variance := by
  rw [complexityOf, Exact.max_eq]
  exact lt_max_of_lt_right (by norm_num)

/-- However much a macroblock is masked, it keeps some bits. -/
theorem share_pos (s : MaskingSettings ℝ) (border : ℝ) (m : Macroblock) :
    0 < (s.share border m).complexity ∧ 0 < (s.share border m).bits := by
  have hcomplexity : (0 : ℝ) < if m.intra then complexityOf m.variance else complexityOf m.mcVariance := by
    cases m.intra <;> exact complexityOf_pos _
  have hfactor (x : ℝ) : (0 : ℝ) < if x < 0.00001 then 0.00001 else x := by
    split
    · norm_num
    · next h => exact lt_of_lt_of_le (by norm_num) (not_lt.1 h)
  exact ⟨hcomplexity, mul_pos hcomplexity (hfactor _)⟩

theorem shares_pos (s : MaskingSettings ℝ) (m : Macroblocks) :
    ∀ x ∈ s.shares m, 0 < x.complexity ∧ 0 < x.bits := by
  intro x hx
  obtain ⟨a, -, rfl⟩ := List.mem_map.1 hx
  exact s.share_pos _ _

-- ---------------------------------------------------------------------------
-- Sums
-- ---------------------------------------------------------------------------

theorem total_eq (l : List (Share ℝ)) : total l = ⟨(l.map (·.complexity)).sum, (l.map (·.bits)).sum⟩ := by
  have hsums (t : Share ℝ) : l.foldl (fun t x => ⟨t.complexity + x.complexity, t.bits + x.bits⟩) t =
      ⟨t.complexity + (l.map (·.complexity)).sum, t.bits + (l.map (·.bits)).sum⟩ := by
    induction l generalizing t with
    | nil => simp
    | cons x rest ih => simp [ih, add_assoc]
  have hzero : (0.0 : ℝ) = 0 := by norm_num
  rw [total, hsums, hzero, zero_add, zero_add]

/-- The correction of a sum by one macroblock is that of its own share. -/
theorem withoutClipped_eq (s : MaskingSettings ℝ) (q lambda : ℝ) (t x : Share ℝ) :
    s.withoutClipped q lambda t x =
      ⟨t.complexity - x.complexity + (s.withoutClipped q lambda x x).complexity,
        t.bits - x.bits + (s.withoutClipped q lambda x x).bits⟩ := by
  unfold withoutClipped
  split
  · simp
  · split <;> simp

/-- The corrected sums are the sums of what the macroblocks leave in them. -/
theorem correctedTotal_eq (s : MaskingSettings ℝ) (q : ℝ) (l : List (Share ℝ)) :
    s.correctedTotal q l =
      ⟨(l.map fun x => (s.remainder q l x).complexity).sum, (l.map fun x => (s.remainder q l x).bits).sum⟩ := by
  have hsums (k : List (Share ℝ)) (t : Share ℝ) :
      k.foldl (fun u x => s.withoutClipped q (firstLambda q l x) u x) t =
        ⟨t.complexity - (k.map (·.complexity)).sum + (k.map fun x => (s.remainder q l x).complexity).sum,
          t.bits - (k.map (·.bits)).sum + (k.map fun x => (s.remainder q l x).bits).sum⟩ := by
    induction k generalizing t with
    | nil => simp
    | cons x rest ih =>
      rw [List.foldl_cons, ih, withoutClipped_eq]
      simp only [List.map_cons, List.sum_cons, remainder]
      congr 1 <;> ring
  rw [correctedTotal, hsums, total_eq]
  simp

-- ---------------------------------------------------------------------------
-- Sizes
-- ---------------------------------------------------------------------------

theorem commonFactor_eq (hnormalized : s.normalized = true)
    (hcomplexity : 0.001 ≤ (s.correctedTotal q l).complexity) (hbits : 0.001 ≤ (s.correctedTotal q l).bits) :
    s.commonFactor q l = some ((s.correctedTotal q l).bits / (s.correctedTotal q l).complexity) := by
  have htotal : s.unclippedTotal q l =
      ⟨Scalar.max (s.correctedTotal q l).complexity 0.001, Scalar.max (s.correctedTotal q l).bits 0.001⟩ := rfl
  simp only [commonFactor, hnormalized, if_true, htotal, Exact.max_eq, max_eq_left hcomplexity, max_eq_left hbits]

/-- A macroblock is as large at its settled lambda as the complexity that it takes out of the sums, and, of the
    complexity that is left, the part that its bits in the sums are worth. -/
theorem size_settled (hq : 0 < q) (hx : 0 < x.complexity ∧ 0 < x.bits) {factor : ℝ} (hfactor : 0 < factor)
    (hcommon : s.commonFactor q l = some factor) :
    x.complexity * q / s.settledLambda q l x + (s.remainder q l x).complexity =
      x.complexity + (s.remainder q l x).bits * factor⁻¹ := by
  simp only [settledLambda, remainder, withoutClipped, hcommon]
  split
  · simp
  · split
    · simp
    · have hbits := hx.2
      have hcomplexity := hx.1
      simp only [lambdaOf]
      field_simp
      ring

/-- The balances of all macroblocks, added up. -/
theorem sum_size_settled (hq : 0 < q) (hl : ∀ x ∈ l, 0 < x.complexity ∧ 0 < x.bits) {factor : ℝ}
    (hfactor : 0 < factor) (hcommon : s.commonFactor q l = some factor) :
    (l.map fun x => x.complexity * q / s.settledLambda q l x).sum + (s.correctedTotal q l).complexity =
      (l.map (·.complexity)).sum + (s.correctedTotal q l).bits * factor⁻¹ := by
  rw [correctedTotal_eq, ← List.sum_map_add, ← List.sum_map_mul_right, ← List.sum_map_add]
  exact congrArg List.sum (List.map_congr_left fun x hx => size_settled hq (hl x hx) hfactor hcommon)

/-- Normalization keeps the size of the picture. The macroblocks that pass an end of the range in the first
    round are counted at that end, and all others at the lambda that the table has for them, before it is rounded
    and brought into the range. Together they are as large as at the picture's lambda. -/
theorem normalized_keeps_size (hnormalized : s.normalized = true) (hq : 0 < q) (m : Macroblocks)
    (hcomplexity : 0.001 ≤ (s.correctedTotal q (s.shares m)).complexity)
    (hbits : 0.001 ≤ (s.correctedTotal q (s.shares m)).bits) :
    let l := s.shares m
    s.lambdas m q = l.map (fun x => s.rounded (lambdaOf q (s.commonFactor q l) x)) ∧
      (∀ x ∈ l, 0 < x.complexity ∧ 0 < x.bits) ∧
      (l.map fun x => x.complexity * q / s.settledLambda q l x).sum = (l.map (·.complexity)).sum := by
  refine ⟨rfl, s.shares_pos m, ?_⟩
  have hpos := s.shares_pos m
  generalize s.shares m = l at *
  have hleft : 0 < (s.correctedTotal q l).complexity := lt_of_lt_of_le (by norm_num) hcomplexity
  have hshared : 0 < (s.correctedTotal q l).bits := lt_of_lt_of_le (by norm_num) hbits
  have hbalance :=
    sum_size_settled hq hpos (div_pos hshared hleft) (commonFactor_eq hnormalized hcomplexity hbits)
  -- The bits that are left in the sums are worth all of the complexity that is left there.
  rw [inv_div, mul_div_cancel₀ _ hshared.ne'] at hbalance
  exact add_right_cancel hbalance

/-- Macroblocks of little variance all have the same complexity. -/
theorem complexityOf_of_le {variance : Nat} (h : variance ≤ 16) : (complexityOf variance : ℝ) = 4 := by
  have hroot : Real.sqrt variance ≤ 4 := Real.sqrt_le_iff.2 ⟨by norm_num, by norm_num; exact_mod_cast h⟩
  calc
    (complexityOf variance : ℝ) = max (Real.sqrt variance) 4.0 := by
      rw [complexityOf, Exact.max_eq, Exact.ofNat_eq]
      rfl
    _ = 4.0 := max_eq_right (by norm_num; exact hroot)
    _ = 4 := by norm_num

/-- A dark macroblock above the range, an intra one below it, and one between them. -/
theorem normalized_keeps_size_three_macroblocks :
    let s : MaskingSettings ℝ :=
      { luminance := 0, darkness := 1 / 2, temporal := 0, spatial := 0, intra := 3, border := 0,
        normalized := true, lmin := 1000, lmax := 2000 }
    let m : Macroblocks := ⟨3, 1, [0, 0, 0], [0, 0, 0], [0, 128, 128], [false, false, true]⟩
    (s.shares m).map (s.settledLambda 1000 (s.shares m)) = [2000, 2000 / 3, 1000] ∧
      ((s.shares m).map fun x => x.complexity * 1000 / s.settledLambda 1000 (s.shares m) x).sum = 12 := by
  intro s m
  have hcomplexity : (complexityOf 0 : ℝ) = 4 := complexityOf_of_le (by decide)
  have hpow : (Scalar.pow 4 0 : ℝ) = 1 := Real.rpow_zero 4
  have hluminance : s.luminanceFactor 0 = 1 / 2 ∧ s.luminanceFactor 128 = 1 := by
    have hmiddle : (128 : UInt8).toNat = 128 := rfl
    norm_num [luminanceFactor, hmiddle, s]
  have hshare (border : ℝ) :
      s.share border ⟨0, 0, 0, false⟩ = ⟨4, 2⟩ ∧ s.share border ⟨0, 0, 128, false⟩ = ⟨4, 4⟩ ∧
        s.share border ⟨0, 0, 128, true⟩ = ⟨4, 16⟩ := by
    simp only [share, hcomplexity, hluminance.1, hluminance.2]
    norm_num [s, hpow]
  have hshares : s.shares m = [⟨4, 2⟩, ⟨4, 4⟩, ⟨4, 16⟩] := by
    simp [shares, Macroblocks.toList, m, hshare]
  have hends : s.lmin.toInt = 1000 ∧ s.lmax.toInt = 2000 := ⟨rfl, rfl⟩
  have hcorrected : s.correctedTotal 1000 (s.shares m) = ⟨6, 4⟩ := by
    rw [hshares]
    simp only [correctedTotal, firstLambda, total, withoutClipped, List.foldl, Exact.ofInt_eq, hends]
    norm_num
  have hleft : 0.001 ≤ (s.correctedTotal 1000 (s.shares m)).complexity := by norm_num [hcorrected]
  have hshared : 0.001 ≤ (s.correctedTotal 1000 (s.shares m)).bits := by norm_num [hcorrected]
  obtain ⟨-, -, hkeeps⟩ := normalized_keeps_size rfl (by norm_num) m hleft hshared
  refine ⟨?_, hkeeps.trans ?_⟩
  · rw [hshares] at hleft hshared hcorrected ⊢
    simp only [settledLambda, commonFactor_eq rfl hleft hshared, hcorrected, List.map]
    simp only [firstLambda, total, lambdaOf, List.foldl, Exact.ofInt_eq, hends]
    norm_num
  · rw [hshares]
    norm_num

end RateControl.MaskingSettings
