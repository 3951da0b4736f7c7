-- SUMMARY: A smoothed curve holds weighted means, each over the pictures of one type within the reach of one position.
import Mathlib.Algebra.BigOperators.Fin
import Mathlib.Algebra.Order.BigOperators.Ring.Finset
import RateControl.Proofs.Exact
import RateControl.Proofs.Blur.Window

/-! # Weighted means

The blur takes the positions of a window in the order of the curve and leaves the others out. What comes out
at a position is a quotient of two sums over its window, which is cut off at the ends of the curve and thinned
out by the types of the pictures. -/

namespace RateControl.Blur

variable {n : ℕ}

/-- The positions that the mean at position `i` is taken over: those of its type within reach. -/
def window (reach : ℕ) (types : Fin n → PictureType) (i : Fin n) : Finset (Fin n) :=
  {j | |(j : ℤ) - i| ≤ reach ∧ types j = types i}

theorem mem_window_self (reach : ℕ) (types : Fin n → PictureType) (i : Fin n) : i ∈ window reach types i := by
  simp [window]

/-- The window of a position within a curve, as the blur finds it. -/
theorem mem_window_iff {reach : ℕ} (hn : n + reach ≤ 2 ^ 63) {types : Fin n → PictureType} {i j : Fin n} :
    j ∈ window reach types i ↔ inWindow reach i j = true ∧ types j = types i := by
  rw [inWindow_eq_isNear (by omega) (fits_of_length hn i.isLt)]
  simp only [window, Finset.mem_filter, Finset.mem_univ, true_and, isNear, decide_eq_true_eq, abs_le]
  exact and_congr_left' (by omega)

open scoped Exact

/-! ## Weights -/

theorem weight_pos (blur : ℝ) (distance : ℤ) : 0 < weight blur distance := by
  unfold weight
  split
  · norm_num
  · exact Real.exp_pos _

/-- Weights do not depend on the side. -/
theorem weight_neg (blur : ℝ) (distance : ℤ) : weight blur (-distance) = weight blur distance := by
  simp [weight]

theorem weight_zero (blur : ℝ) : weight blur 0 = 1 := by
  simp [weight]
  norm_num

theorem weight_of_no_blur (distance : ℤ) : weight (0 : ℝ) distance = 1 := by
  simp [weight]
  norm_num

/-! ## Means -/

theorem mean_eq (blur : ℝ) (i : ℕ) (l : List (ℕ × ℝ)) :
    mean blur i l = (l.map fun v => v.2 * weight blur (v.1 - i : ℤ)).sum /
      (l.map fun v => weight blur (v.1 - i : ℤ)).sum := by
  have hsums (c : ℝ × ℝ) :
      l.foldl (fun c v => (c.1 + v.2 * weight blur (v.1 - i : ℤ), c.2 + weight blur (v.1 - i : ℤ))) c =
        (c.1 + (l.map fun v => v.2 * weight blur (v.1 - i : ℤ)).sum,
          c.2 + (l.map fun v => weight blur (v.1 - i : ℤ)).sum) := by
    induction l generalizing c with
    | nil => simp
    | cons v rest ih => simp [ih, add_assoc]
  have hzero : (0.0 : ℝ) = 0 := by norm_num
  change (List.foldl _ (0.0, 0.0) l).1 / (List.foldl _ (0.0, 0.0) l).2 = _
  rw [hsums, hzero, zero_add, zero_add]

/-- A sum over the neighbours of a position is a sum over its window. -/
theorem sum_neighbours {reach : ℕ} (hn : n + reach ≤ 2 ^ 63) (types : Fin n → PictureType) (q : Fin n → ℝ)
    (i : Fin n) (f : ℕ × ℝ → ℝ) :
    ((neighbours reach (List.ofFn fun j => (types j, q j)) (types i) i).map f).sum =
      ∑ j ∈ window reach types i, f (j, q j) := by
  have hthinned (l : List ((PictureType × ℝ) × ℕ)) :
      ((l.filterMap fun ((u, x), j) => if inWindow reach i j ∧ u = types i then some (j, x) else none).map f).sum =
        (l.map fun a => if inWindow reach i a.2 ∧ a.1.1 = types i then f (a.2, a.1.2) else 0).sum := by
    induction l with
    | nil => rfl
    | cons a rest ih =>
      rw [List.filterMap_cons, List.map_cons, List.sum_cons, ← ih]
      split <;> simp_all
  have hindexed : (List.ofFn fun j => (types j, q j)).zipIdx =
      List.ofFn fun j : Fin n => ((types j, q j), (j : ℕ)) :=
    List.ext_getElem (by simp) fun k _ _ => by simp
  have hwindow : Finset.univ.filter (fun j : Fin n => inWindow reach i j ∧ types j = types i) =
      window reach types i := by
    ext j
    simp [mem_window_iff hn]
  rw [neighbours, hthinned, hindexed, List.map_ofFn, List.sum_ofFn, ← hwindow, Finset.sum_filter]
  rfl

/-- The mean of the values in a window, weighted by their distance from its middle. -/
noncomputable def weightedMean (reach : ℕ) (blur : ℝ) (types : Fin n → PictureType) (q : Fin n → ℝ)
    (i : Fin n) : ℝ :=
  (∑ j ∈ window reach types i, q j * weight blur (j - i)) / ∑ j ∈ window reach types i, weight blur (j - i)

theorem smooth_eq {reach : ℕ} (hn : n + reach ≤ 2 ^ 63) (blur : ℝ) (types : Fin n → PictureType) (q : Fin n → ℝ) :
    smooth reach blur (List.ofFn fun j => (types j, q j)) = List.ofFn (weightedMean reach blur types q) := by
  refine List.ext_getElem (by simp [smooth]) fun k hk _ => ?_
  have hk : k < n := by simpa [smooth] using hk
  simp only [smooth, List.getElem_map, List.getElem_zipIdx, List.getElem_ofFn, Nat.zero_add]
  rw [mean_eq, sum_neighbours hn types q ⟨k, hk⟩, sum_neighbours hn types q ⟨k, hk⟩]
  rfl

section Means

variable (reach : ℕ) (blur : ℝ) (types : Fin n → PictureType) (q : Fin n → ℝ) (i : Fin n)

theorem weights_pos : 0 < ∑ j ∈ window reach types i, weight blur (j - i) :=
  Finset.sum_pos (fun _ _ => weight_pos blur _) ⟨i, mem_window_self reach types i⟩

/-- Not all values of a window are above the mean, and not all below it. -/
theorem weightedMean_between :
    (∃ j ∈ window reach types i, q j ≤ weightedMean reach blur types q i) ∧
      ∃ j ∈ window reach types i, weightedMean reach blur types q i ≤ q j := by
  have hne : (window reach types i).Nonempty := ⟨i, mem_window_self reach types i⟩
  have hsum : ∑ j ∈ window reach types i, weightedMean reach blur types q i * weight blur (j - i) =
      ∑ j ∈ window reach types i, q j * weight blur (j - i) := by
    rw [← Finset.mul_sum, weightedMean, div_mul_cancel₀ _ (weights_pos reach blur types i).ne']
  have hcancel (j : Fin n) {x y : ℝ} (h : x * weight blur (j - i) ≤ y * weight blur (j - i)) : x ≤ y :=
    le_of_mul_le_mul_right h (weight_pos blur _)
  obtain ⟨j, hj, hlow⟩ := Finset.exists_le_of_sum_le hne hsum.ge
  obtain ⟨k, hk, hhigh⟩ := Finset.exists_le_of_sum_le hne hsum.le
  exact ⟨⟨j, hj, hcancel j hlow⟩, ⟨k, hk, hcancel k hhigh⟩⟩

theorem weightedMean_of_constant (h : ∀ j ∈ window reach types i, q j = q i) :
    weightedMean reach blur types q i = q i := by
  obtain ⟨⟨j, hj, hlow⟩, ⟨k, hk, hhigh⟩⟩ := weightedMean_between reach blur types q i
  rw [h j hj] at hlow
  rw [h k hk] at hhigh
  exact le_antisymm hhigh hlow

/-- Values outside of the window take no part. -/
theorem weightedMean_congr {q' : Fin n → ℝ} (h : ∀ j ∈ window reach types i, q' j = q j) :
    weightedMean reach blur types q' i = weightedMean reach blur types q i := by
  unfold weightedMean
  rw [Finset.sum_congr rfl fun j hj => by rw [h j hj]]

theorem weightedMean_mono {q' : Fin n → ℝ} (h : ∀ j ∈ window reach types i, q j ≤ q' j) :
    weightedMean reach blur types q i ≤ weightedMean reach blur types q' i := by
  refine div_le_div_of_nonneg_right (Finset.sum_le_sum fun j hj => ?_) (weights_pos reach blur types i).le
  exact mul_le_mul_of_nonneg_right (h j hj) (weight_pos blur _).le

theorem weightedMean_of_no_blur :
    weightedMean reach 0 types q i = (∑ j ∈ window reach types i, q j) / (window reach types i).card := by
  simp [weightedMean, weight_of_no_blur]

end Means

/-- Where all windows fit, smoothing takes a weighted mean at every position, over its window only. The weights are
    positive, the same for both sides, and 1 at the position itself. -/
theorem smooth_weighted_means {reach : ℕ} (hn : n + reach ≤ 2 ^ 63) (blur : ℝ) (types : Fin n → PictureType) :
    (∀ distance, 0 < weight blur distance ∧ weight blur (-distance) = weight blur distance) ∧ weight blur 0 = 1 ∧
    (∀ q, smooth reach blur (List.ofFn fun j => (types j, q j)) = List.ofFn (weightedMean reach blur types q)) ∧
    ∀ q i,
      let members := window reach types i
      let mean := weightedMean reach blur types q i
      i ∈ members ∧ 0 < ∑ j ∈ members, weight blur (j - i) ∧
        (∃ j ∈ members, ∃ k ∈ members, q j ≤ mean ∧ mean ≤ q k) ∧
        ((∀ j ∈ members, q j = q i) → mean = q i) ∧
        (∀ q', (∀ j ∈ members, q' j = q j) → weightedMean reach blur types q' i = mean) ∧
        (blur = 0 → mean = (∑ j ∈ members, q j) / members.card) := by
  refine ⟨fun d => ⟨weight_pos blur d, weight_neg blur d⟩, weight_zero blur, smooth_eq hn blur types,
    fun q i => ?_⟩
  obtain ⟨⟨j, hj, hlow⟩, ⟨k, hk, hhigh⟩⟩ := weightedMean_between reach blur types q i
  refine ⟨mem_window_self reach types i, weights_pos reach blur types i, ⟨j, hj, k, hk, hlow, hhigh⟩,
    weightedMean_of_constant reach blur types q i, fun q' => weightedMean_congr reach blur types q i, ?_⟩
  rintro rfl
  exact weightedMean_of_no_blur reach types q i

theorem smooth_weighted_means_three_pictures :
    3 + 1 ≤ 2 ^ 63 ∧ smooth 1 (1 / 2 : ℝ) [(.intra, 1000), (.predicted, 100), (.predicted, 200)] =
      [1000, (100 + 200 * Real.exp (-4)) / (1 + Real.exp (-4)),
        (100 * Real.exp (-4) + 200) / (Real.exp (-4) + 1)] := by
  have hn : 3 + 1 ≤ 2 ^ 63 := by norm_num
  obtain ⟨-, -, hsmooth, -⟩ := smooth_weighted_means hn (1 / 2) ![.intra, .predicted, .predicted]
  have hwindows : window 1 ![PictureType.intra, .predicted, .predicted] = ![{0}, {1, 2}, {1, 2}] := by decide
  have hweight : weight (2⁻¹ : ℝ) 1 = Real.exp (-4) := by norm_num [weight]
  refine ⟨hn, (hsmooth ![1000, 100, 200]).trans ?_⟩
  simp [weightedMean, hwindows, weight_zero, weight_neg, hweight]

end RateControl.Blur
