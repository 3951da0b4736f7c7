-- SUMMARY: The sums of a picture type are over exactly the pictures of that type that were counted.
import RateControl.Proofs.ExactReading
import RateControl.State

/-! # Counted pictures

Counting a picture adds it to the sums of its own type, and to nothing else. So the sums of a type are a fold
over the pictures of the type, in the order in which they were counted. -/

namespace RateControl

variable {σ δ K : Type} [Scalar δ] [Precision σ δ]

namespace Sums

/-- The sums of all types with pictures counted one after the other. -/
def tally (sums : PerType (Sums δ)) (rs : List (Record σ)) : PerType (Sums δ) :=
  rs.foldl (fun sums r => sums.modify r.pictureType (·.add r)) sums

theorem tally_append_singleton (sums : PerType (Sums δ)) (rs : List (Record σ)) (r : Record σ) :
    tally sums (rs ++ [r]) = (tally sums rs).modify r.pictureType (·.add r) := by
  simp only [tally, List.foldl_append, List.foldl_cons, List.foldl_nil]

/-- Pictures of other types do not matter. -/
theorem get_tally (sums : PerType (Sums δ)) (rs : List (Record σ)) (t : PictureType) :
    (tally sums rs).get t = (rs.filter (·.pictureType = t)).foldl add (sums.get t) := by
  induction rs generalizing sums with
  | nil => rfl
  | cons r rest ih =>
    rw [tally, List.foldl_cons]
    refine (ih _).trans ?_
    by_cases ht : r.pictureType = t
    · rw [List.filter_cons_of_pos (by simp [ht]), List.foldl_cons, ← ht, PerType.modify, PerType.get_set_self]
    · rw [List.filter_cons_of_neg (by simp [ht]), PerType.modify, PerType.get_set_of_ne _ _ (Ne.symm ht)]

end Sums

theorem State.sums_foldl_account (st : State δ) (rs : List (Record σ)) :
    (rs.foldl State.account st).sums = Sums.tally st.sums rs := by
  induction rs generalizing st with
  | nil => rfl
  | cons r rest ih => exact ih (st.account r)

namespace ExactReading

variable [Field K] (x : ExactReading δ K)

/-- The sums are those over the pictures of a list, each sum and the count 1 more. -/
structure Tallies (s : Sums δ) (rs : List (Record σ)) : Prop where
  count_eq : s.count = 1 + rs.length
  intra_eq : x.value s.intra = 1 + (rs.map fun r => (r.intraBits.toInt : K) * x.value (widen r.quantizer)).sum
  predicted_eq : x.value s.predicted =
    1 + (rs.map fun r => (r.predictedBits.toInt : K) * x.value (widen r.quantizer)).sum
  motion_eq : x.value s.motion = 1 + (rs.map fun r => (r.motionBits.toInt : K)).sum
  quantizer_eq : x.value s.quantizer = 1 + (rs.map fun r => x.value (widen r.quantizer)).sum

/-- The sums of each type are those over the pictures of the type. -/
def TalliesEach (sums : PerType (Sums δ)) (rs : List (Record σ)) : Prop :=
  ∀ t, x.Tallies (sums.get t) (rs.filter (·.pictureType = t))

variable [CharZero K] {x}

/-- No average over counted pictures divides by zero. -/
theorem Tallies.count_ne_zero {s : Sums δ} {rs : List (Record σ)} (h : x.Tallies s rs) :
    x.value (Scalar.ofNat s.count) ≠ 0 := by
  rw [Scalar.ofNat, x.value_ofInt, h.count_eq]
  rw [Int.cast_natCast, Nat.cast_ne_zero, Nat.add_comm]
  exact Nat.succ_ne_zero _

theorem tallies_foldl (x : ExactReading δ K) (rs : List (Record σ)) : x.Tallies (rs.foldl Sums.add .initial) rs := by
  induction rs using List.reverseRecOn with
  | nil =>
    have hone : x.value 1.0 = 1 := (x.value_ofScientific ..).trans (by norm_num)
    constructor <;> simp [Sums.initial, hone]
  | append_singleton before r ih =>
    rw [List.foldl_append, List.foldl_cons, List.foldl_nil]
    constructor
    · simp [Sums.add, ih.count_eq, add_assoc]
    · simp [Sums.add, x.value_add, x.value_mul, x.value_ofInt, ih.intra_eq, add_assoc]
    · simp [Sums.add, x.value_add, x.value_mul, x.value_ofInt, ih.predicted_eq, add_assoc]
    · simp [Sums.add, x.value_add, x.value_ofInt, ih.motion_eq, add_assoc]
    · simp [Sums.add, x.value_add, ih.quantizer_eq, add_assoc]

theorem talliesEach_tally (x : ExactReading δ K) (rs : List (Record σ)) :
    x.TalliesEach (Sums.tally (.replicate .initial) rs) rs := by
  intro t
  rw [Sums.get_tally, PerType.get_replicate]
  exact tallies_foldl x _

end ExactReading
end RateControl
