-- SUMMARY: The size model never extrapolates: it predicts with a weighted mean of the coefficients that it has seen, and forgets an error by the factor of its decay.
import RateControl.Proofs.Exact
import Mathlib.Order.Interval.Set.UnorderedInterval
import RateControl.Proofs.Decay
import RateControl.SizeModel

/-! # Predictions and observations

A model sees coded pictures one after the other. Each picture implies a coefficient, and what the model keeps
are two decaying sums: that of the coefficients and that of their weights. Its prediction goes by their quotient,
so it stays among the predictions that the coefficients would give alone. -/

namespace RateControl.SizeModel

/-- A coded picture as the model sees it. -/
structure Observation (δ : Type) where
  quantizer : δ
  complexity : δ
  size : δ

-- ---------------------------------------------------------------------------
-- Observations
-- ---------------------------------------------------------------------------

section Observations

variable {δ : Type} [Scalar δ]

namespace Observation

/-- Whether the picture is complex enough for its size to say something about the coefficient. -/
def isTelling (o : Observation δ) : Bool := ¬ o.complexity < leastComplexity

/-- The coefficient that the size of the picture implies. -/
def coefficient (o : Observation δ) : δ := o.size * o.quantizer / (o.complexity + 1.0)

end Observation

/-- The coefficients that the model takes in. -/
def coefficients (os : List (Observation δ)) : List δ := (os.filter (·.isTelling)).map (·.coefficient)

/-- The model after observations, taken in one after the other. -/
def observe (m : SizeModel δ) (os : List (Observation δ)) : SizeModel δ :=
  os.foldl (fun m o => m.update o.quantizer o.complexity o.size) m

theorem observe_append (m : SizeModel δ) (os os' : List (Observation δ)) :
    m.observe (os ++ os') = (m.observe os).observe os' := List.foldl_append

theorem update_eq (m : SizeModel δ) (o : Observation δ) :
    m.update o.quantizer o.complexity o.size =
      if o.isTelling then
        { m with coefficient := m.coefficient * m.decay + o.coefficient, count := m.count * m.decay + 1.0 }
      else m := by
  by_cases h : o.complexity < leastComplexity <;> simp [update, Observation.isTelling, Observation.coefficient, h]

/-- Observations that tell nothing can be left out. -/
theorem observe_telling (m : SizeModel δ) (os : List (Observation δ)) :
    m.observe (os.filter (·.isTelling)) = m.observe os := by
  induction os generalizing m with
  | nil => rfl
  | cons o rest ih =>
    rw [observe, observe, List.foldl_cons, update_eq]
    cases ho : o.isTelling with
    | true =>
      rw [List.filter_cons_of_pos ho, List.foldl_cons, update_eq, ho]
      exact ih _
    | false =>
      rw [List.filter_cons_of_neg (by simp [ho])]
      exact ih m

end Observations

-- ---------------------------------------------------------------------------
-- Weighted means
-- ---------------------------------------------------------------------------

section Means

open scoped Exact

variable {K : Type} [Field K] [LinearOrder K] [FloorRing K] [Transcendental K]

/-- What a model keeps are two decaying sums with one decay. -/
theorem observe_eq [IsStrictOrderedRing K] (m : SizeModel K) (os : List (Observation K)) :
    m.observe os =
      ⟨decayed m.decay m.coefficient (coefficients os),
        decayedWeight m.decay m.count (coefficients os).length, m.decay⟩ := by
  have hone : (1.0 : K) = 1 := by norm_num
  induction os generalizing m with
  | nil => rfl
  | cons o rest ih =>
    rw [observe, List.foldl_cons, update_eq]
    cases ho : o.isTelling with
    | true =>
      have hcoefficients : coefficients (o :: rest) = o.coefficient :: coefficients rest := by
        simp [coefficients, ho]
      rw [hcoefficients, hone]
      exact ih _
    | false =>
      have hcoefficients : coefficients (o :: rest) = coefficients rest := by simp [coefficients, ho]
      rw [hcoefficients]
      exact ih m

theorem standard_eq : (standard : SizeModel K) = ⟨826, 1, 0.4⟩ := by
  have hcoefficient : (7.0 : K) * (lambdaPerQP : Int) = 826 := by norm_num [lambdaPerQP]
  have hcount : (1.0 : K) = 1 := by norm_num
  simp only [standard, Exact.ofInt_eq, hcoefficient, hcount]

/-- How far a prediction is from that of a coefficient `x` alone. -/
theorem predict_sub {m : SizeModel K} (hcount : 0 < m.count) {q : K} (hq : 0 < q) (v x : K) :
    m.predict q v - x * v / q = (m.coefficient - x * m.count) / m.count * (v / q) := by
  rw [predict]
  field_simp

variable [IsStrictOrderedRing K]

/-- Among coefficients of which one is the least and one the greatest, a prediction is among those that these
    coefficients give alone. -/
theorem predict_mem_uIcc {m : SizeModel K} {lo hi : K}
    (hlow : lo ≤ m.coefficient / m.count) (hhigh : m.coefficient / m.count ≤ hi) (q v : K) :
    m.predict q v ∈ Set.uIcc (lo * v / q) (hi * v / q) := by
  have hpredict : m.predict q v = m.coefficient / m.count * (v / q) := by
    rw [predict, mul_comm q, mul_div_mul_comm]
  rw [hpredict, mul_div_assoc, mul_div_assoc, Set.mem_uIcc]
  obtain hv | hv := le_total 0 (v / q)
  · exact .inl ⟨mul_le_mul_of_nonneg_right hlow hv, mul_le_mul_of_nonneg_right hhigh hv⟩
  · exact .inr ⟨mul_le_mul_of_nonpos_right hhigh hv, mul_le_mul_of_nonpos_right hlow hv⟩

/-- While all observations imply one coefficient, the error of a prediction decays at least as fast as the past. -/
theorem error_decays {m : SizeModel K} (hdecay : 0 ≤ m.decay) (hcount : 0 < m.count)
    {steady : List (Observation K)} {x : K} (hsteady : ∀ o ∈ steady, o.isTelling = true ∧ o.coefficient = x)
    (hgrown : m.count ≤ (m.observe steady).count) {q : K} (hq : 0 < q) (v : K) :
    |(m.observe steady).predict q v - x * v / q| ≤ m.decay ^ steady.length * |m.predict q v - x * v / q| := by
  have hcoefficients : coefficients steady = .replicate steady.length x := by
    have htelling : steady.filter (·.isTelling) = steady := List.filter_eq_self.2 fun o ho => (hsteady o ho).1
    rw [coefficients, htelling]
    exact List.eq_replicate_iff.2 ⟨by simp, List.forall_mem_map.2 fun o ho => (hsteady o ho).2⟩
  have herror : (m.observe steady).coefficient - x * (m.observe steady).count =
      m.decay ^ steady.length * (m.coefficient - x * m.count) := by
    rw [observe_eq, hcoefficients, List.length_replicate]
    exact decayed_sub_of_constant ..
  have hpos : 0 < (m.observe steady).count := hcount.trans_le hgrown
  calc
    |(m.observe steady).predict q v - x * v / q| =
        m.decay ^ steady.length * (|m.coefficient - x * m.count| / (m.observe steady).count * |v / q|) := by
      rw [predict_sub hpos hq, herror, abs_mul, abs_div (_ * _), abs_mul, abs_of_nonneg (pow_nonneg hdecay _),
        abs_of_pos hpos]
      ring
    _ ≤ m.decay ^ steady.length * (|m.coefficient - x * m.count| / m.count * |v / q|) := by gcongr
    _ = m.decay ^ steady.length * |m.predict q v - x * v / q| := by
      rw [predict_sub hcount hq, abs_mul, abs_div (m.coefficient - _), abs_of_pos hcount]

/-- A model that has seen any pictures. Those of too little complexity are without effect; the others leave two
    decaying sums, of their coefficients and of the weights of these; every prediction is one among those of the
    least and the greatest coefficient; and pictures that go on to imply one and the same coefficient make
    the error against it shrink by 0.4 or less each. -/
theorem predict_interpolates (os : List (Observation K)) :
    let m : SizeModel K := standard.observe os
    let xs := coefficients os
    m = standard.observe (os.filter (·.isTelling)) ∧
    m.coefficient = 0.4 ^ xs.length * 826 + ∑ k : Fin xs.length, 0.4 ^ (xs.length - 1 - k) * xs.get k ∧
    m.count = ∑ j ∈ Finset.range (xs.length + 1), 0.4 ^ j ∧ 1 ≤ m.count ∧ m.count < 5 / 3 ∧
    (∃ lo ∈ 826 :: xs, ∃ hi ∈ 826 :: xs, (∀ x ∈ 826 :: xs, lo ≤ x ∧ x ≤ hi) ∧
      lo ≤ m.coefficient / m.count ∧ m.coefficient / m.count ≤ hi ∧
      ∀ q v, 0 < q → m.predict q v ∈ Set.uIcc (lo * v / q) (hi * v / q)) ∧
    ∀ (steady : List (Observation K)) (x : K), (∀ o ∈ steady, o.isTelling = true ∧ o.coefficient = x) →
      ∀ q v, 0 < q →
        |(m.observe steady).predict q v - x * v / q| ≤ 0.4 ^ steady.length * |m.predict q v - x * v / q| := by
  intro m xs
  have hm : m = ⟨decayed 0.4 826 xs, decayedWeight 0.4 1 xs.length, 0.4⟩ := by
    simp only [m, xs, observe_eq, standard_eq]
  have hdecay : (0 : K) < 0.4 := by norm_num
  have hcount : 1 ≤ m.count := hm ▸ one_le_decayedWeight hdecay.le _
  have hpos : 0 < m.count := one_pos.trans_le hcount
  refine ⟨(observe_telling _ _).symm, hm ▸ decayed_eq .., hm ▸ decayedWeight_one .., hcount, ?_, ?_, ?_⟩
  · have hlt : m.count * (1 - 0.4) < 1 := hm ▸ decayedWeight_mul_lt hdecay _
    norm_num at hlt ⊢
    linarith
  · obtain ⟨lo, hlo, hi, hhi, hbounds⟩ := exists_least_greatest 826 xs
    have hbetween := decayed_div_between hdecay.le one_pos hbounds
    have hquotient : decayed 0.4 (826 * 1) xs / decayedWeight 0.4 1 xs.length = m.coefficient / m.count := by
      rw [hm, mul_one]
    rw [hquotient] at hbetween
    obtain ⟨hlow, hhigh⟩ := hbetween
    exact ⟨lo, hlo, hi, hhi, hbounds, hlow, hhigh, fun q v _ => predict_mem_uIcc hlow hhigh q v⟩
  · intro steady x hsteady q v hq
    have hafter : (m.observe steady).count = decayedWeight 0.4 1 (coefficients (os ++ steady)).length := by
      rw [← observe_append, observe_eq, standard_eq]
    have hgrown : m.count ≤ (m.observe steady).count := by
      rw [hafter, hm]
      exact decayedWeight_mono hdecay.le (by simp [xs, coefficients])
    have hm' : m.decay = 0.4 := by rw [hm]
    rw [← hm']
    exact error_decays (hm'.symm ▸ hdecay.le) hpos hsteady hgrown hq v

/-- A picture that is too simple, one that implies a coefficient of 4000, and a third that implies the same. -/
theorem predict_interpolates_three_pictures :
    let os : List (Observation ℚ) := [⟨236, 5, 100000⟩, ⟨100, 99, 4000⟩]
    let m : SizeModel ℚ := standard.observe os
    coefficients os = [4000] ∧ m.coefficient = 0.4 * 826 + 4000 ∧ m.count = 1 + 0.4 ∧
    (∃ lo ∈ [826, 4000], ∃ hi ∈ [826, 4000], m.predict 100 50 ∈ Set.uIcc (lo * 50 / 100) (hi * 50 / 100)) ∧
    |(m.observe [⟨200, 49, 1000⟩]).predict 100 50 - 4000 * 50 / 100| ≤
      0.4 * |m.predict 100 50 - 4000 * 50 / 100| := by
  intro os m
  have hxs : coefficients os = [4000] := by decide +kernel
  have hsteady : ∀ o ∈ [(⟨200, 49, 1000⟩ : Observation ℚ)], o.isTelling = true ∧ o.coefficient = 4000 := by
    decide +kernel
  obtain ⟨-, hcoefficient, hcount, -, -, ⟨lo, hlo, hi, hhi, -, -, -, hpredict⟩, herror⟩ := predict_interpolates os
  rw [hxs] at hcoefficient hcount hlo hhi
  refine ⟨hxs, ?_, ?_, ⟨lo, hlo, hi, hhi, hpredict 100 50 (by norm_num)⟩, ?_⟩
  · simpa using hcoefficient
  · simpa [Finset.sum_range_succ] using hcount
  · simpa using herror _ 4000 hsteady 100 50 (by norm_num)

end Means

end RateControl.SizeModel
