-- SUMMARY: The bounds that all settings keep to, and those that settings without a violation keep to.
import RateControl.LambdaRange
import RateControl.Validation

/-! # Bounds of the settings

Lambda ranges are brought into order whatever the settings are. Other bounds hold of valid settings, in which
no rule is broken. -/

namespace RateControl

/-- The range of a picture type is never empty, and never outside of all lambdas. -/
theorem QuantizerSettings.lambdaRange_bounds {σ : Type} (δ : Type) [Scalar σ] [Scalar δ] [Precision σ δ]
    (q : QuantizerSettings σ) (t : PictureType) :
    1 ≤ (q.lambdaRange δ t).least ∧ (q.lambdaRange δ t).least ≤ (q.lambdaRange δ t).greatest ∧
      (q.lambdaRange δ t).greatest ≤ lambdaMax := by
  have hclamp (n : Int) : 1 ≤ clampLambda n ∧ clampLambda n ≤ lambdaMax := by
    simp only [clampLambda, lambdaMax]
    omega
  suffices h : ∀ lo hi : Int, 1 ≤ clampLambda lo ∧
      clampLambda lo ≤ (if clampLambda hi < clampLambda lo then clampLambda lo else clampLambda hi) ∧
      (if clampLambda hi < clampLambda lo then clampLambda lo else clampLambda hi) ≤ lambdaMax by
    unfold lambdaRange
    split
    exact h _ _
  intro lo hi
  have hlo := hclamp lo
  have hhi := hclamp hi
  split <;> omega

namespace Settings

variable {σ : Type} [Scalar σ] {s : Settings σ} {secondPass : Bool}

theorem rule_of_violation?_eq_none (h : s.violation? secondPass = none) {r : Rule σ}
    (hr : r ∈ s.rules secondPass) : r.1 = false := by
  rw [violation?, Option.map_eq_none_iff, List.find?_eq_none] at h
  simpa using h r hr

theorem tolerance_pos (h : s.violation? secondPass = none) : 0 < s.tolerance.toInt := by
  have hrule := rule_of_violation?_eq_none h (r := (s.tolerance ≤ 0, .tolerance s.tolerance))
    (by simp [rules, streamRules])
  have hle : ¬ s.tolerance ≤ 0 := by simpa using hrule
  rw [Int32.le_iff_toInt_le, Int32.toInt_zero] at hle
  omega

theorem bitrate_pos (s : Settings σ) (h : s.violation? secondPass = none) : 0 < s.bitrate.toInt := by
  have hrule := rule_of_violation?_eq_none h (r := (s.bitrate ≤ 0, .bitrate s.bitrate))
    (by simp [rules, streamRules])
  have hle : ¬ s.bitrate ≤ 0 := by simpa using hrule
  rw [Int64.le_iff_toInt_le, Int64.toInt_zero] at hle
  omega

theorem maxStep_nonneg (s : Settings σ) (h : s.violation? secondPass = none) :
    0 ≤ s.quantizer.maxStep.toInt := by
  have hrule := rule_of_violation?_eq_none h
    (r := (s.quantizer.maxStep < 0, .maxStep s.quantizer.maxStep)) (by simp [rules, quantizerRules])
  have hle : ¬ s.quantizer.maxStep < 0 := by simpa using hrule
  rw [Int32.lt_iff_toInt_lt, Int32.toInt_zero] at hle
  omega

theorem timeBase_bounds (s : Settings σ) (h : s.violation? secondPass = none) :
    (0 < s.timeBase.num ∧ s.timeBase.num ≤ timeBaseMax) ∧
      (0 < s.timeBase.den ∧ s.timeBase.den ≤ timeBaseMax) := by
  have hnum := rule_of_violation?_eq_none h
    (r := (s.timeBase.num = 0 ∨ timeBaseMax < s.timeBase.num, .frameRateNum s.timeBase.num))
    (by simp [rules, streamRules])
  have hden := rule_of_violation?_eq_none h
    (r := (s.timeBase.den = 0 ∨ timeBaseMax < s.timeBase.den, .frameRateDen s.timeBase.den))
    (by simp [rules, streamRules])
  simp only [decide_eq_false_iff_not] at hnum hden
  omega

theorem initialOccupancy_le (s : Settings σ) (h : s.violation? secondPass = none) :
    s.initialOccupancy.toInt ≤ s.bufferSize.toInt := by
  have hrule := rule_of_violation?_eq_none h
    (r := (s.bufferSize < s.initialOccupancy, .initialOccupancy s.initialOccupancy s.bufferSize))
    (by simp [rules, bufferRules])
  have hlt : ¬ s.bufferSize < s.initialOccupancy := by simpa using hrule
  rw [Int32.lt_iff_toInt_lt] at hlt
  omega

theorem rates_nonneg (s : Settings σ) (h : s.violation? secondPass = none) :
    0 ≤ s.minRate.toInt ∧ 0 ≤ s.maxRate.toInt := by
  have hrule := rule_of_violation?_eq_none h
    (r := (s.minRate < 0 ∨ s.maxRate < 0 ∨ s.maxRate < s.minRate, .channelRates s.minRate s.maxRate))
    (by simp [rules, bufferRules])
  simp only [decide_eq_false_iff_not, not_or, Int64.lt_iff_toInt_lt, Int64.toInt_zero] at hrule
  omega

theorem blur_bounds (s : Settings σ) (h : s.violation? secondPass = none) :
    Scalar.isFinite s.blur = true ∧ ¬ s.blur < 0.0 ∧ (secondPass = false → ¬ s.blur > 1.0) := by
  have hrange := rule_of_violation?_eq_none h (r := (!Scalar.isFinite s.blur || s.blur < 0.0, .blur s.blur))
    (by simp [rules, curveRules])
  have hleak := rule_of_violation?_eq_none h (r := (!secondPass && s.blur > 1.0, .blurTooLarge s.blur))
    (by simp [rules, curveRules])
  simp only [Bool.or_eq_false_iff, Bool.not_eq_false', decide_eq_false_iff_not] at hrange
  refine ⟨hrange.1, hrange.2, ?_⟩
  rintro rfl
  simpa using hleak

end Settings
end RateControl
