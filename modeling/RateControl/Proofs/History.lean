-- SUMMARY: Runs of the limiter: what they leave behind in a history, and how far apart the quantizers of a type can be.
import RateControl.Proofs.Exact
import RateControl.History

/-! # Limited quantizers

A history limits one quantizer after the other, whatever the order of the types. It changes in two places only:
the last quantizer of the type at hand, and the type of the last reference. So the quantizers of a type are tied
to each other through any number of pictures of other types. -/

namespace RateControl.History

-- ---------------------------------------------------------------------------
-- Runs
-- ---------------------------------------------------------------------------

section Runs

variable {σ δ : Type} [Scalar σ] [Scalar δ] [Precision σ δ]

/-- Limits the candidates of pictures one after the other. -/
def limitAll (h : History δ) (s : QuantizerSettings σ) : List (PictureType × δ) → List δ × History δ
  | []        => ([], h)
  | a :: rest =>
    let x := h.limit s a.1 a.2
    let y := limitAll x.2 s rest
    (x.1 :: y.1, y.2)

/-- The type of the last picture that is not a B picture. -/
def lastReference (types : List PictureType) : Option PictureType :=
  types.reverse.find? (· ≠ .bidirectional)

theorem lastReference_append_singleton (types : List PictureType) (t : PictureType) :
    lastReference (types ++ [t]) = if t = .bidirectional then lastReference types else some t := by
  by_cases ht : t = .bidirectional <;> simp [lastReference, ht]

variable (h : History δ) (s : QuantizerSettings σ)

@[simp] theorem last_limit_self (t : PictureType) (q : δ) :
    (h.limit s t q).2.last.get t = (h.limit s t q).1 := PerType.get_set_self ..

theorem last_limit_of_ne {t u : PictureType} (hu : u ≠ t) (q : δ) :
    (h.limit s t q).2.last.get u = h.last.get u := PerType.get_set_of_ne _ _ hu

theorem reference_limit (t : PictureType) (q : δ) :
    (h.limit s t q).2.reference = if t = .bidirectional then h.reference else some t := rfl

theorem length_limitAll (calls : List (PictureType × δ)) : (h.limitAll s calls).1.length = calls.length := by
  induction calls generalizing h with
  | nil => rfl
  | cons a rest ih => simp [limitAll, ih]

theorem limitAll_append (calls calls' : List (PictureType × δ)) :
    h.limitAll s (calls ++ calls') =
      ((h.limitAll s calls).1 ++ ((h.limitAll s calls).2.limitAll s calls').1,
        ((h.limitAll s calls).2.limitAll s calls').2) := by
  induction calls generalizing h with
  | nil => rfl
  | cons a rest ih => simp [limitAll, ih]

theorem last_limitAll_of_absent {t : PictureType} {calls : List (PictureType × δ)} (ht : t ∉ calls.map (·.1)) :
    (h.limitAll s calls).2.last.get t = h.last.get t := by
  induction calls generalizing h with
  | nil => rfl
  | cons a rest ih =>
    rw [List.map_cons, List.mem_cons, not_or] at ht
    exact (ih _ ht.2).trans (h.last_limit_of_ne s ht.1 a.2)

theorem reference_limitAll (calls : List (PictureType × δ)) :
    (h.limitAll s calls).2.reference = (lastReference (calls.map (·.1))).or h.reference := by
  induction calls using List.reverseRecOn with
  | nil => rfl
  | append_singleton before a ih =>
    rw [limitAll_append, List.map_append, List.map_singleton, lastReference_append_singleton]
    change ((h.limitAll s before).2.limit s a.1 a.2).2.reference = _
    rw [reference_limit, ih]
    split <;> simp

end Runs

-- ---------------------------------------------------------------------------
-- Bounds
-- ---------------------------------------------------------------------------

section Bounds

variable {σ K : Type} [Field K] [LinearOrder K]

/-- Every last quantizer is from 1 on. -/
def FromOne (h : History K) : Prop := ∀ t, 1 ≤ h.last.get t

theorem FromOne.set {h : History K} (hh : h.FromOne) (t : PictureType) {q : K} (hq : 1 ≤ q) (u : PictureType) :
    1 ≤ (h.last.set t q).get u := by
  by_cases hu : u = t
  · subst hu
    simpa using hq
  · rw [PerType.get_set_of_ne _ _ hu]
    exact hh u

/-- Neighbouring quantizers of a type are at most the greatest step apart. I pictures are neighbours where there
    are only B pictures between them, and other pictures where there is none of their type. -/
def WithinStep (s : QuantizerSettings σ) (curve : List (PictureType × K)) : Prop :=
  ∀ (l m r : List (PictureType × K)) (t : PictureType) (x y : K), curve = l ++ (t, x) :: (m ++ (t, y) :: r) →
    (∀ a ∈ m, a.1 ≠ t) → (t = .intra → ∀ a ∈ m, a.1 = .bidirectional) → |y - x| ≤ 118 * s.maxStep.toInt

theorem WithinStep.reverse {s : QuantizerSettings σ} {curve : List (PictureType × K)} (h : WithinStep s curve) :
    WithinStep s curve.reverse := by
  intro l m r t x y hcurve hother hintra
  rw [List.reverse_eq_iff] at hcurve
  rw [abs_sub_comm]
  refine h r.reverse m.reverse l.reverse t y x (by simp [hcurve]) ?_ fun ht => ?_
  · simpa using hother
  · simpa using hintra ht

open scoped Exact

variable [IsStrictOrderedRing K] [FloorRing K] [Transcendental K]

omit [IsStrictOrderedRing K] in
theorem atLeastOne_eq (q : K) : atLeastOne q = max 1 q := by
  unfold atLeastOne
  norm_num
  split
  · next h => rw [max_eq_left h.le]
  · next h => rw [max_eq_right (not_lt.1 h)]

theorem stepped_eq {last step : K} (hstep : 0 ≤ step) (q : K) :
    stepped last step q = max (last - step) (min q (last + step)) := by
  unfold stepped
  split
  · next h => rw [min_eq_right (le_of_lt h), max_eq_right (by linarith)]
  · next h =>
    rw [min_eq_left (not_lt.1 h)]
    split
    · next h' => rw [max_eq_left h'.le]
    · next h' => rw [max_eq_right (not_lt.1 h')]

variable {s : QuantizerSettings σ}

omit [IsStrictOrderedRing K] in
theorem maxStep_eq (s : QuantizerSettings σ) : (maxStep s : K) = 118 * s.maxStep.toInt := by
  simp [maxStep, lambdaPerQP]

theorem maxStep_nonneg (hs : 0 ≤ s.maxStep.toInt) : (0 : K) ≤ maxStep s := by
  have hs : (0 : K) ≤ s.maxStep.toInt := by exact_mod_cast hs
  rw [maxStep_eq]
  positivity

theorem fromOne_initial : (initial : History K).FromOne := by
  intro t
  simp [initial, initialQuantizer, lambdaPerQP]

variable [Scalar σ] [Precision σ K]

theorem FromOne.one_le_limit {h : History K} (hh : h.FromOne) (hs : 0 ≤ s.maxStep.toInt) (t : PictureType) (q : K) :
    1 ≤ (h.limit s t q).1 := by
  have hone : 1 ≤ max 1 (h.derived s t q) := le_max_left _ _
  have hstep : (0 : K) ≤ maxStep s := maxStep_nonneg hs
  simp only [limit, atLeastOne_eq]
  split
  · -- A step down may end below 1, but the greater of it and the candidate counts.
    rw [stepped_eq hstep]
    exact le_max_of_le_right (le_min hone (by linarith [hh t]))
  · exact hone

theorem FromOne.limit {h : History K} (hh : h.FromOne) (hs : 0 ≤ s.maxStep.toInt) (t : PictureType) (q : K) :
    (h.limit s t q).2.FromOne := hh.set t (hh.one_le_limit hs t q)

/-- The limit of an I picture only holds where the last reference is an I picture, too. -/
theorem abs_limit_sub_le (h : History K) (hs : 0 ≤ s.maxStep.toInt) {t : PictureType}
    (ht : t ≠ .intra ∨ h.reference = some .intra) (q : K) :
    |(h.limit s t q).1 - h.last.get t| ≤ maxStep s := by
  have hstep : (0 : K) ≤ maxStep s := maxStep_nonneg hs
  have hlimited : h.reference = some t ∨ t ≠ .intra := by
    by_cases hi : t = .intra
    · exact .inl (hi ▸ ht.resolve_left (not_not.2 hi))
    · exact .inr hi
  simp only [limit, if_pos hlimited]
  rw [stepped_eq hstep, abs_le]
  generalize atLeastOne (h.derived s t q) = q
  have hlow : h.last.get t - maxStep s ≤ max (h.last.get t - maxStep s) (min q (h.last.get t + maxStep s)) :=
    le_max_left _ _
  have hhigh : max (h.last.get t - maxStep s) (min q (h.last.get t + maxStep s)) ≤ h.last.get t + maxStep s :=
    max_le (by linarith) (min_le_right _ _)
  constructor <;> linarith

/-- The next quantizer of a type is near the last one, whatever pictures of other types come before it. -/
theorem abs_next_sub_le (hs : 0 ≤ s.maxStep.toInt) {h : History K} {t : PictureType}
    (ht : t ≠ .intra ∨ h.reference = some .intra) {calls m r : List (PictureType × K)} {x : K}
    (hrun : (calls.map (·.1)).zip (h.limitAll s calls).1 = m ++ (t, x) :: r) (hother : ∀ a ∈ m, a.1 ≠ t)
    (hintra : t = .intra → ∀ a ∈ m, a.1 = .bidirectional) : |x - h.last.get t| ≤ maxStep s := by
  induction m generalizing h calls with
  | nil =>
    cases calls with
    | nil => cases hrun
    | cons a rest =>
      simp only [limitAll, List.map_cons, List.zip_cons_cons, List.nil_append, List.cons.injEq, Prod.mk.injEq] at hrun
      obtain ⟨⟨rfl, rfl⟩, -⟩ := hrun
      exact h.abs_limit_sub_le hs ht a.2
  | cons b m ih =>
    cases calls with
    | nil => cases hrun
    | cons a rest =>
      simp only [limitAll, List.map_cons, List.zip_cons_cons, List.cons_append, List.cons.injEq] at hrun
      obtain ⟨rfl, hrun⟩ := hrun
      rw [List.forall_mem_cons] at hother
      rw [← h.last_limit_of_ne s hother.1.symm a.2]
      refine ih ?_ hrun hother.2 fun hi => (List.forall_mem_cons.1 (hintra hi)).2
      -- Between I pictures there are only B pictures here, which leave the reference as it is.
      by_cases hi : t = .intra
      · have hb : a.1 = .bidirectional := (List.forall_mem_cons.1 (hintra hi)).1
        rw [reference_limit, if_pos hb]
        exact .inr (ht.resolve_left (not_not.2 hi))
      · exact .inl hi

theorem withinStep_limitAll (hs : 0 ≤ s.maxStep.toInt) (h : History K) (calls : List (PictureType × K)) :
    WithinStep s ((calls.map (·.1)).zip (h.limitAll s calls).1) := by
  intro l m r t x y hrun hother hintra
  rw [← maxStep_eq]
  -- The run up to the first of the two pictures. The history behind it holds the quantizer of that picture.
  induction l generalizing h calls with
  | nil =>
    cases calls with
    | nil => cases hrun
    | cons a rest =>
      simp only [limitAll, List.map_cons, List.zip_cons_cons, List.nil_append, List.cons.injEq, Prod.mk.injEq] at hrun
      obtain ⟨⟨rfl, rfl⟩, hrun⟩ := hrun
      rw [← h.last_limit_self s a.1 a.2]
      refine abs_next_sub_le hs ?_ hrun hother hintra
      by_cases hi : a.1 = .intra
      · rw [reference_limit, hi]
        exact .inr rfl
      · exact .inl hi
  | cons b l ih =>
    cases calls with
    | nil => cases hrun
    | cons a rest =>
      simp only [limitAll, List.map_cons, List.zip_cons_cons, List.cons_append, List.cons.injEq] at hrun
      exact ih _ _ hrun.2

theorem FromOne.limitAll {h : History K} (hh : h.FromOne) (hs : 0 ≤ s.maxStep.toInt)
    (calls : List (PictureType × K)) :
    (h.limitAll s calls).2.FromOne ∧ ∀ x ∈ (h.limitAll s calls).1, 1 ≤ x := by
  induction calls generalizing h with
  | nil => exact ⟨hh, by simp [History.limitAll]⟩
  | cons a rest ih =>
    obtain ⟨hafter, hxs⟩ := ih (hh.limit hs a.1 a.2)
    exact ⟨hafter, List.forall_mem_cons.2 ⟨hh.one_le_limit hs a.1 a.2, hxs⟩⟩

end Bounds

end RateControl.History
