-- SUMMARY: A shaped quantizer rises with its candidate and lies in the lambda range of its picture type, whatever the buffer holds.
import RateControl.Proofs.Exact
import RateControl.Proofs.Validation
import RateControl.Shaping

/-! # Shaped quantizers

Modulation and the two scalings of the buffer protection multiply a candidate by positive numbers, the limits
of the protection are a minimum and a maximum, and both ways into the lambda range rise. So each stage keeps
the order of positive candidates, in whichever combination the settings turn the stages on. The last stage
alone decides the range, which is never empty. -/

namespace RateControl.Settings

open scoped Exact

variable {s : Settings ℝ}

-- ---------------------------------------------------------------------------
-- Lambda range
-- ---------------------------------------------------------------------------

theorem clipped_eq {lo hi : ℝ} (hrange : lo ≤ hi) (q : ℝ) : clipped lo hi q = max lo (min q hi) := by
  unfold clipped
  split
  · next h => rw [min_eq_left (h.le.trans hrange), max_eq_left h.le]
  · next h =>
    have h := not_lt.1 h
    split
    · next h' => rw [min_eq_right (le_of_lt h'), max_eq_right hrange]
    · next h' => rw [min_eq_left (not_lt.1 h'), max_eq_right h]

/-- The soft curve runs between the ends of the range and meets neither. -/
theorem squished_bounds {lo hi : ℝ} (hlo : 1 ≤ lo) (hrange : lo < hi) (x : ℝ) :
    lo < squished lo hi x ∧ squished lo hi x < hi := by
  have hlo : 0 < lo := by linarith
  have hhi : 0 < hi := hlo.trans hrange
  have hwidth : 0 < Real.log hi - Real.log lo := sub_pos.2 (Real.log_lt_log hlo hrange)
  simp only [squished, Exact.exp_eq, Exact.log_eq]
  norm_num
  generalize -(4 * ((Real.log x - Real.log lo) / (Real.log hi - Real.log lo) - 1 / 2)) = z
  have hlogistic : 0 < (1 + Real.exp z)⁻¹ ∧ (1 + Real.exp z)⁻¹ < 1 :=
    ⟨by positivity, inv_lt_one_of_one_lt₀ (by linarith [Real.exp_pos z])⟩
  constructor
  · calc lo = Real.exp (0 + Real.log lo) := by rw [zero_add, Real.exp_log hlo]
      _ < _ := by gcongr; exact mul_pos hlogistic.1 hwidth
  · calc _ < Real.exp (1 * (Real.log hi - Real.log lo) + Real.log lo) := by
          gcongr
          exact hlogistic.2
      _ = hi := by rw [one_mul, sub_add_cancel, Real.exp_log hhi]

/-- The soft curve rises. -/
theorem squished_mono {lo hi : ℝ} (hlo : 1 ≤ lo) (hrange : lo ≤ hi) {x y : ℝ} (hpos : 0 < x)
    (hle : x ≤ y) : squished lo hi x ≤ squished lo hi y := by
  have hlo : 0 < lo := by linarith
  have hwidth : 0 ≤ Real.log hi - Real.log lo := sub_nonneg.2 (Real.log_le_log hlo hrange)
  have hlog : Real.log x ≤ Real.log y := Real.log_le_log hpos hle
  simp only [squished, Exact.exp_eq, Exact.log_eq]
  norm_num
  gcongr

theorem intoRange_of_clipped {range : LambdaRange} (h : s.squish = 0 ∨ range.least = range.greatest) (x : ℝ) :
    s.intoRange range x = clipped (range.least : ℝ) range.greatest x := by
  have hzero : (0.0 : ℝ) = 0 := by norm_num
  have hcond : (s.squish == (0.0 : ℝ) || (range.least : ℝ) == range.greatest) = true := by
    simpa [hzero] using h
  simp only [intoRange, Exact.ofInt_eq, hcond, if_true]

theorem intoRange_of_squished {range : LambdaRange} (hsquish : s.squish ≠ 0)
    (hrange : range.least < range.greatest) (x : ℝ) :
    s.intoRange range x = squished (range.least : ℝ) range.greatest x := by
  have hzero : (0.0 : ℝ) = 0 := by norm_num
  have hcond : (s.squish == (0.0 : ℝ) || (range.least : ℝ) == range.greatest) = false := by
    simpa [hzero] using And.intro hsquish hrange.ne
  simp only [intoRange, Exact.ofInt_eq, hcond, Bool.false_eq_true, if_false]

/-- Candidates are clipped to a single lambda even where the settings ask for the soft curve. -/
theorem squish_cases (s : Settings ℝ) {range : LambdaRange} (hrange : range.least ≤ range.greatest) :
    (s.squish = 0 ∨ range.least = range.greatest) ∨ s.squish ≠ 0 ∧ range.least < range.greatest := by
  by_cases h : s.squish = 0 ∨ range.least = range.greatest
  · exact .inl h
  · rw [not_or] at h
    exact .inr ⟨h.1, lt_of_le_of_ne hrange h.2⟩

theorem intoRange_bounds {range : LambdaRange} (hleast : 1 ≤ range.least)
    (hrange : range.least ≤ range.greatest) (x : ℝ) :
    range.least ≤ s.intoRange range x ∧ s.intoRange range x ≤ range.greatest ∧
      (s.squish ≠ 0 → range.least < range.greatest →
        range.least < s.intoRange range x ∧ s.intoRange range x < range.greatest) := by
  obtain hclip | ⟨hsquish, hlt⟩ := s.squish_cases hrange
  · have hrange : (range.least : ℝ) ≤ range.greatest := by exact_mod_cast hrange
    rw [intoRange_of_clipped hclip, clipped_eq hrange]
    exact ⟨le_max_left _ _, max_le hrange (min_le_right _ _),
      fun hsquish hlt => absurd hclip (not_or.2 ⟨hsquish, hlt.ne⟩)⟩
  · have hleast : (1 : ℝ) ≤ range.least := by exact_mod_cast hleast
    have hlt' : (range.least : ℝ) < range.greatest := by exact_mod_cast hlt
    obtain ⟨hlow, hhigh⟩ := squished_bounds hleast hlt' x
    rw [intoRange_of_squished hsquish hlt]
    exact ⟨hlow.le, hhigh.le, fun _ _ => ⟨hlow, hhigh⟩⟩

theorem intoRange_mono {range : LambdaRange} (hleast : 1 ≤ range.least)
    (hrange : range.least ≤ range.greatest) {x y : ℝ} (hpos : 0 < x) (hle : x ≤ y) :
    s.intoRange range x ≤ s.intoRange range y := by
  have hrange' : (range.least : ℝ) ≤ range.greatest := by exact_mod_cast hrange
  obtain hclip | ⟨hsquish, hlt⟩ := s.squish_cases hrange
  · rw [intoRange_of_clipped hclip, intoRange_of_clipped hclip, clipped_eq hrange', clipped_eq hrange']
    exact max_le_max_left _ (min_le_min_right _ hle)
  · have hleast : (1 : ℝ) ≤ range.least := by exact_mod_cast hleast
    rw [intoRange_of_squished hsquish hlt, intoRange_of_squished hsquish hlt]
    exact squished_mono hleast hrange' hpos hle

-- ---------------------------------------------------------------------------
-- Buffer protection
-- ---------------------------------------------------------------------------

/-- A share of the buffer changes a quantizer by a positive factor, whatever the share is. -/
theorem reaction_pos [Precision ℝ ℝ] (s : Settings ℝ) (d : ℝ) : 0 < s.reaction d := by
  have hshare : 0 < clipShare d := by
    unfold clipShare
    norm_num
    split
    · norm_num
    · split
      · norm_num
      · linarith
  exact Real.rpow_pos_of_pos hshare _

/-- The limits of the protection are positive: a picture may take one bit in any case. -/
theorem limit_pos {scale : ℝ} (hscale : 0 < scale) (room : ℝ) : 0 < scale / Scalar.max room 1.0 := by
  rw [Exact.max_eq]
  exact div_pos hscale (lt_max_of_lt_right (by norm_num))

section Roundings

variable [Precision ℝ ℝ] {x y : ℝ}

/-- Against an overflow a candidate is scaled, and limited from above. -/
theorem value_againstOverflow (s : Settings ℝ) {b : Buffer ℝ} (hmin : (b.minRate == (0.0 : ℝ)) = false)
    (r : Record ℝ) (x : ℝ) :
    (s.againstOverflow b r x).value =
      min (r.textureScale / Scalar.max ((b.minRate - b.capacity + b.occupancy) * widen s.overflowUse) 1.0)
        (x * s.reaction (2.0 * (b.capacity - b.occupancy) / b.capacity)) := by
  simp only [againstOverflow, hmin, Bool.false_eq_true, if_false, Logged.value_bind, Logged.value_pure,
    Record.value_quantizerFor]
  exact (min_def_lt _ _).symm

/-- Against an underflow a candidate is scaled, and limited from below. -/
theorem value_againstUnderflow (s : Settings ℝ) {b : Buffer ℝ} (hmax : (b.maxRate == (0.0 : ℝ)) = false)
    (r : Record ℝ) (x : ℝ) :
    (s.againstUnderflow b r x).value =
      max (x / s.reaction (2.0 * b.occupancy / b.capacity))
        (r.textureScale / Scalar.max (b.occupancy * widen s.contentUse) 1.0) := by
  simp only [againstUnderflow, hmax, Bool.false_eq_true, if_false, Logged.value_bind, Logged.value_pure,
    Record.value_quantizerFor]
  exact (max_def_lt _ _).symm

theorem againstOverflow_mono (s : Settings ℝ) (b : Buffer ℝ) {r : Record ℝ} (hr : (0 : ℝ) < r.textureScale)
    (hpos : 0 < x) (hle : x ≤ y) :
    0 < (s.againstOverflow b r x).value ∧
      (s.againstOverflow b r x).value ≤ (s.againstOverflow b r y).value := by
  cases hmin : b.minRate == (0.0 : ℝ) with
  | true =>
    simp only [againstOverflow, hmin, if_true]
    exact ⟨hpos, hle⟩
  | false =>
    rw [value_againstOverflow s hmin, value_againstOverflow s hmin]
    have hfactor := s.reaction_pos (2.0 * (b.capacity - b.occupancy) / b.capacity)
    exact ⟨lt_min (limit_pos hr _) (mul_pos hpos hfactor),
      min_le_min_left _ (mul_le_mul_of_nonneg_right hle hfactor.le)⟩

theorem againstUnderflow_mono (s : Settings ℝ) (b : Buffer ℝ) {r : Record ℝ} (hr : (0 : ℝ) < r.textureScale)
    (hpos : 0 < x) (hle : x ≤ y) :
    0 < (s.againstUnderflow b r x).value ∧
      (s.againstUnderflow b r x).value ≤ (s.againstUnderflow b r y).value := by
  cases hmax : b.maxRate == (0.0 : ℝ) with
  | true =>
    simp only [againstUnderflow, hmax, if_true]
    exact ⟨hpos, hle⟩
  | false =>
    rw [value_againstUnderflow s hmax, value_againstUnderflow s hmax]
    have hfactor := s.reaction_pos (2.0 * b.occupancy / b.capacity)
    exact ⟨lt_max_of_lt_right (limit_pos hr _), max_le_max_right _ (div_le_div_of_nonneg_right hle hfactor.le)⟩

/-- The two protections may contradict each other: the one against the underflow comes last, and stands. -/
theorem protect_mono (s : Settings ℝ) (b : Buffer ℝ) {r : Record ℝ} (hr : (0 : ℝ) < r.textureScale)
    (hpos : 0 < x) (hle : x ≤ y) :
    0 < (s.protect b r x).value ∧ (s.protect b r x).value ≤ (s.protect b r y).value := by
  unfold protect
  split
  · obtain ⟨hpos, hle⟩ := s.againstOverflow_mono b hr hpos hle
    exact s.againstUnderflow_mono b hr hpos hle
  · exact ⟨hpos, hle⟩

-- ---------------------------------------------------------------------------
-- Shapes
-- ---------------------------------------------------------------------------

/-- Whatever is shaped is from 1 on, with or without a buffer. -/
theorem one_le_shape (s : Settings ℝ) (b : Buffer ℝ) (r : Record ℝ) (q : ℝ) (picture : Nat) :
    1 ≤ (s.shape b r q picture : Logged (Event ℝ ℝ) ℝ).value := by
  obtain ⟨hleast, hrange, -⟩ := s.quantizer.lambdaRange_bounds ℝ r.pictureType
  have hone : (1 : ℝ) ≤ (s.quantizer.lambdaRange ℝ r.pictureType).least := by exact_mod_cast hleast
  exact hone.trans (intoRange_bounds hleast hrange _).1

variable [Precision.IsRounding]

theorem modulated_mono (hs : s.modulationPeriod = 0 ∨ 0 < s.modulation) (t : PictureType)
    (picture : Nat) (hpos : 0 < x) (hle : x ≤ y) :
    0 < s.modulated t picture x ∧ s.modulated t picture x ≤ s.modulated t picture y := by
  unfold modulated
  split
  · next h =>
    have hmodulation : 0 < s.modulation := hs.resolve_left (by simp_all [isModulated])
    rw [Precision.IsRounding.widen_eq]
    exact ⟨mul_pos hpos hmodulation, mul_le_mul_of_nonneg_right hle hmodulation.le⟩
  · exact ⟨hpos, hle⟩

theorem shape_mono (hs : s.modulationPeriod = 0 ∨ 0 < s.modulation) (b : Buffer ℝ) {r : Record ℝ}
    (hr : (0 : ℝ) < r.textureScale) (picture : Nat) (hpos : 0 < x) (hle : x ≤ y) :
    (s.shape b r x picture : Logged (Event ℝ ℝ) ℝ).value ≤
      (s.shape b r y picture : Logged (Event ℝ ℝ) ℝ).value := by
  obtain ⟨hleast, hrange, -⟩ := s.quantizer.lambdaRange_bounds ℝ r.pictureType
  obtain ⟨hpos, hle⟩ := modulated_mono hs r.pictureType picture hpos hle
  obtain ⟨hpos, hle⟩ := s.protect_mono b hr hpos hle
  exact intoRange_mono hleast hrange hpos hle

/-- The range of a picture type is a range of lambdas whatever the settings are. A picture with texture is
    shaped into it, in the order of the positive candidates, and strictly inside it on the soft curve: under
    every combination of modulation, of the two protections of the buffer, and of the ways into the range. -/
theorem shape_rises_within_range :
    (∀ (σ δ : Type) [Scalar σ] [Scalar δ] [Precision σ δ] (q : QuantizerSettings σ) (t : PictureType),
      1 ≤ (q.lambdaRange δ t).least ∧ (q.lambdaRange δ t).least ≤ (q.lambdaRange δ t).greatest ∧
        (q.lambdaRange δ t).greatest ≤ lambdaMax) ∧
    ∀ (s : Settings ℝ) (b : Buffer ℝ) (r : Record ℝ) (picture : Nat),
      s.modulationPeriod = 0 ∨ 0 < s.modulation → (0 : ℝ) < r.textureScale →
        let range := s.quantizer.lambdaRange ℝ r.pictureType
        let shaped (q : ℝ) := (s.shape b r q picture : Logged (Event ℝ ℝ) ℝ).value
        (∀ x y, 0 < x → x ≤ y → shaped x ≤ shaped y) ∧
          ∀ x, 0 < x → range.least ≤ shaped x ∧ shaped x ≤ range.greatest ∧
            (s.squish ≠ 0 → range.least < range.greatest →
              range.least < shaped x ∧ shaped x < range.greatest) := by
  refine ⟨fun σ δ _ _ _ q t => q.lambdaRange_bounds δ t, fun s b r picture hmodulation hr => ?_⟩
  refine ⟨fun x y hpos hle => shape_mono hmodulation b hr picture hpos hle, fun x _ => ?_⟩
  obtain ⟨hleast, hrange, -⟩ := s.quantizer.lambdaRange_bounds ℝ r.pictureType
  exact intoRange_bounds hleast hrange _

end Roundings

theorem shape_rises_within_range_two_candidates :
    let s : Settings ℝ := { Settings.standard with squish := 1 }
    let b : Buffer ℝ := ⟨1000, 10, 20, 0, 500⟩
    let r : Record ℝ := { quantizer := 236, plannedQuantizer := 236, predictedBits := 20000 }
    let shaped (q : ℝ) := (s.shape b r q 0 : Logged (Event ℝ ℝ) ℝ).value
    (0 : ℝ) < r.textureScale ∧ 236 < shaped 300 ∧ shaped 300 ≤ shaped 400 ∧ shaped 400 < 3658 := by
  intro s b r shaped
  have hrange : s.quantizer.lambdaRange ℝ r.pictureType = ⟨236, 3658⟩ := by decide
  have hscale : (0 : ℝ) < r.textureScale := by
    have hbits : (r.intraBits.toInt, r.predictedBits.toInt) = (0, 20000) := rfl
    simp only [Prod.mk.injEq] at hbits
    norm_num [Record.textureScale, hbits, r]
  obtain ⟨hrises, hwithin⟩ := shape_rises_within_range.2 s b r 0 (.inl rfl) hscale
  have hstrict (x : ℝ) (hx : 0 < x) := (hwithin x hx).2.2 (one_ne_zero (α := ℝ)) (by rw [hrange]; decide)
  simp only [hrange] at hstrict
  refine ⟨hscale, ?_, hrises 300 400 (by norm_num) (by norm_num), ?_⟩
  · exact_mod_cast (hstrict 300 (by norm_num)).1
  · exact_mod_cast (hstrict 400 (by norm_num)).2

end RateControl.Settings
