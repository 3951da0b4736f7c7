-- SUMMARY: Sums in which every term leaks away: their closed form, and the bounds that their quotient by the sum of the weights keeps.
import Mathlib.Algebra.BigOperators.Fin
import Mathlib.Algebra.Order.Ring.GeomSum
import Mathlib.Algebra.Order.Field.Basic
import Mathlib.Tactic.Linarith
import Mathlib.Tactic.Ring

/-! # Decaying sums

A decaying sum keeps a fixed share of what it was whenever a term comes in. The weights of its terms are powers
of that share, and the sum of the weights is the decaying sum of ones. So a decaying sum over the decaying sum
of ones is a weighted mean, which lies between the least and the greatest of its terms. -/

namespace RateControl

variable {K : Type} [Field K]

/-- The decaying sum that starts at `first` and takes in the terms `xs`. -/
def decayed (keep first : K) (xs : List K) : K := xs.foldl (fun sum x => sum * keep + x) first

/-- The sum of the weights of `n` terms and the start, which weighs `first` at the beginning. -/
def decayedWeight (keep first : K) (n : ℕ) : K := decayed keep first (.replicate n 1)

section Sums

variable (keep first : K)

theorem decayed_cons (x : K) (xs : List K) : decayed keep first (x :: xs) = decayed keep (first * keep + x) xs := rfl

theorem decayedWeight_succ (n : ℕ) : decayedWeight keep first (n + 1) = decayedWeight keep first n * keep + 1 := by
  simp only [decayedWeight, decayed, List.replicate_succ', List.foldl_append, List.foldl_cons, List.foldl_nil]

/-- The last term has the weight 1, and each term before it the share of the weight behind it. -/
theorem decayed_eq (xs : List K) :
    decayed keep first xs =
      keep ^ xs.length * first + ∑ k : Fin xs.length, keep ^ (xs.length - 1 - k) * xs.get k := by
  induction xs generalizing first with
  | nil => simp [decayed]
  | cons x xs ih =>
    rw [decayed_cons, ih]
    simp only [List.length_cons, Fin.sum_univ_succ]
    have hsum : ∑ k : Fin xs.length, keep ^ (xs.length + 1 - 1 - (k.succ : ℕ)) * (x :: xs).get k.succ =
        ∑ k : Fin xs.length, keep ^ (xs.length - 1 - k) * xs.get k := by
      refine Finset.sum_congr rfl fun k _ => ?_
      have hexp : xs.length + 1 - 1 - (k.succ : ℕ) = xs.length - 1 - k := by
        rw [Fin.val_succ]
        omega
      rw [hexp]
      rfl
    have hfirst : keep ^ (xs.length + 1 - 1 - ((0 : Fin (xs.length + 1)) : ℕ)) * (x :: xs).get 0 =
        keep ^ xs.length * x := rfl
    rw [hsum, hfirst]
    ring

/-- Apart from the start, the weights are those of the geometric series. -/
theorem decayedWeight_eq_geom_sum (n : ℕ) :
    decayedWeight keep first n = keep ^ n * first + ∑ j ∈ Finset.range n, keep ^ j := by
  induction n with
  | zero => simp [decayedWeight, decayed]
  | succ n ih =>
    rw [decayedWeight_succ, ih, geom_sum_succ]
    ring

theorem decayedWeight_eq (n : ℕ) :
    decayedWeight keep first n = keep ^ n * first + ∑ k : Fin n, keep ^ (n - 1 - k) := by
  rw [decayedWeight_eq_geom_sum, Fin.sum_univ_eq_sum_range fun k => keep ^ (n - 1 - k),
    Finset.sum_range_reflect fun k => keep ^ k]

theorem decayedWeight_one (n : ℕ) : decayedWeight keep 1 n = ∑ j ∈ Finset.range (n + 1), keep ^ j := by
  rw [decayedWeight_eq_geom_sum, mul_one, Finset.sum_range_succ, add_comm]

/-- The difference from a fixed value decays as a whole while all terms have that value. -/
theorem decayed_sub_of_constant (weight x : K) (n : ℕ) :
    decayed keep first (.replicate n x) - x * decayedWeight keep weight n = keep ^ n * (first - x * weight) := by
  induction n generalizing first weight with
  | zero => simp [decayed, decayedWeight]
  | succ n ih =>
    have hweight : decayedWeight keep weight (n + 1) = decayedWeight keep (weight * keep + 1) n := rfl
    rw [List.replicate_succ, decayed_cons, hweight, ih]
    ring

end Sums

-- ---------------------------------------------------------------------------
-- Bounds
-- ---------------------------------------------------------------------------

variable [LinearOrder K] [IsStrictOrderedRing K] {keep first weight lo hi : K} {xs : List K}

theorem decayed_ge (hkeep : 0 ≤ keep) (hfirst : lo * weight ≤ first) (hxs : ∀ x ∈ xs, lo ≤ x) :
    lo * decayedWeight keep weight xs.length ≤ decayed keep first xs := by
  induction xs generalizing first weight with
  | nil => exact hfirst
  | cons x xs ih =>
    rw [List.forall_mem_cons] at hxs
    refine ih ?_ hxs.2
    have hkept := mul_le_mul_of_nonneg_right hfirst hkeep
    linarith [hxs.1]

theorem decayed_le (hkeep : 0 ≤ keep) (hfirst : first ≤ hi * weight) (hxs : ∀ x ∈ xs, x ≤ hi) :
    decayed keep first xs ≤ hi * decayedWeight keep weight xs.length := by
  induction xs generalizing first weight with
  | nil => exact hfirst
  | cons x xs ih =>
    rw [List.forall_mem_cons] at hxs
    refine ih ?_ hxs.2
    have hkept := mul_le_mul_of_nonneg_right hfirst hkeep
    linarith [hxs.1]

theorem decayedWeight_pos (hkeep : 0 ≤ keep) (hfirst : 0 < first) (n : ℕ) : 0 < decayedWeight keep first n := by
  cases n with
  | zero => exact hfirst
  | succ n =>
    have hbefore : 0 ≤ decayedWeight keep first n := by
      rw [decayedWeight_eq]
      exact add_nonneg (by positivity) (Finset.sum_nonneg fun _ _ => pow_nonneg hkeep _)
    rw [decayedWeight_succ]
    positivity

/-- The weighted mean of terms and of the value `c` at the start. -/
theorem decayed_div_between {c : K} (hkeep : 0 ≤ keep) (hweight : 0 < weight)
    (hbounds : ∀ x ∈ c :: xs, lo ≤ x ∧ x ≤ hi) :
    lo ≤ decayed keep (c * weight) xs / decayedWeight keep weight xs.length ∧
      decayed keep (c * weight) xs / decayedWeight keep weight xs.length ≤ hi := by
  have hpos := decayedWeight_pos hkeep hweight xs.length
  obtain ⟨⟨hlo, hhi⟩, hxs⟩ := List.forall_mem_cons.1 hbounds
  rw [le_div_iff₀ hpos, div_le_iff₀ hpos]
  exact ⟨decayed_ge hkeep (mul_le_mul_of_nonneg_right hlo hweight.le) fun x hx => (hxs x hx).1,
    decayed_le hkeep (mul_le_mul_of_nonneg_right hhi hweight.le) fun x hx => (hxs x hx).2⟩

omit [IsStrictOrderedRing K] [Field K] in
/-- Among values there are a least and a greatest one. -/
theorem exists_least_greatest (c : K) (xs : List K) :
    ∃ lo ∈ c :: xs, ∃ hi ∈ c :: xs, ∀ x ∈ c :: xs, lo ≤ x ∧ x ≤ hi := by
  have hne : (c :: xs).toFinset.Nonempty := ⟨c, by simp⟩
  obtain ⟨lo, hlo, hlow⟩ := Finset.exists_min_image _ id hne
  obtain ⟨hi, hhi, hhigh⟩ := Finset.exists_max_image _ id hne
  simp only [List.mem_toFinset, id] at hlo hlow hhi hhigh
  exact ⟨lo, hlo, hi, hhi, fun x hx => ⟨hlow x hx, hhigh x hx⟩⟩

/-- With every term the weight grows. -/
theorem decayedWeight_mono (hkeep : 0 ≤ keep) : Monotone (decayedWeight keep 1) := by
  refine monotone_nat_of_le_succ fun n => ?_
  rw [decayedWeight_one, decayedWeight_one, Finset.sum_range_succ _ (n + 1)]
  exact le_add_of_nonneg_right (pow_nonneg hkeep _)

theorem one_le_decayedWeight (hkeep : 0 ≤ keep) (n : ℕ) : 1 ≤ decayedWeight keep 1 n :=
  decayedWeight_mono hkeep (Nat.zero_le n)

/-- No number of terms brings the weight up to what the whole geometric series weighs. -/
theorem decayedWeight_mul_lt (hkeep : 0 < keep) (n : ℕ) : decayedWeight keep 1 n * (1 - keep) < 1 := by
  have hpow : 0 < keep ^ (n + 1) := pow_pos hkeep _
  rw [decayedWeight_one, geom_sum_mul_neg]
  linarith

end RateControl
