-- SUMMARY: Border masking treats opposite edges alike, except along an axis of a multiple of five macroblocks.
import RateControl.Proofs.Binary.Single
import RateControl.Masking

/-! # Mirrored pictures

The outer fifths of an axis are found with two divisions that round down. Along an axis whose length is no
multiple of five they round such that both fifths have the same positions, counted from their edges. Along all
others the far fifth lies one position further out, and its last position would be the one behind the axis. -/

namespace RateControl

-- ---------------------------------------------------------------------------
-- Orders
-- ---------------------------------------------------------------------------

/-- The list `m` is `l` read in the order that `order` gives for positions. -/
structure Reordered {α : Type} (order : Nat → Nat) (l m : List α) : Prop where
  length_eq : m.length = l.length
  getElem?_eq : ∀ i < l.length, m[i]? = l[order i]?

namespace Reordered

variable {α β : Type} {order : Nat → Nat} {l m : List α}

theorem map (h : Reordered order l m) (f : α → β) : Reordered order (l.map f) (m.map f) where
  length_eq := by simp [h.length_eq]
  getElem?_eq i hi := by
    rw [List.length_map] at hi
    rw [List.getElem?_map, List.getElem?_map, h.getElem?_eq i hi]

theorem zip (h : Reordered order l m) {l' m' : List β} (h' : Reordered order l' m') :
    Reordered order (l.zip l') (m.zip m') where
  length_eq := by simp [h.length_eq, h'.length_eq]
  getElem?_eq i hi := by
    rw [List.length_zip, lt_min_iff] at hi
    simp only [List.zip_eq_zipWith, List.getElem?_zipWith, h.getElem?_eq i hi.1, h'.getElem?_eq i hi.2]

/-- What a function makes of elements and their positions is reordered if it does not tell the positions from
    the reordered ones. -/
theorem map_zipIdx (h : Reordered order l m) {f : α × Nat → β}
    (hf : ∀ i < l.length, ∀ a, f (a, order i) = f (a, i)) :
    Reordered order (l.zipIdx.map f) (m.zipIdx.map f) where
  length_eq := by simp [h.length_eq]
  getElem?_eq i hi := by
    rw [List.length_map, List.length_zipIdx] at hi
    simp only [List.getElem?_map, List.getElem?_zipIdx, h.getElem?_eq i hi, Option.map_map, zero_add]
    exact congrArg (l[order i]?.map ·) (funext fun a => (hf i hi a).symm)

end Reordered

namespace Macroblocks

/-- All four statistics are there for every macroblock of the picture. -/
structure IsFull (m : Macroblocks) : Prop where
  variance : m.variance.length = m.width * m.height
  mcVariance : m.mcVariance.length = m.width * m.height
  mean : m.mean.length = m.width * m.height
  intra : m.intra.length = m.width * m.height

/-- The picture `n` has the macroblocks of `m`, in the order that `order` gives for positions. -/
structure Rearranged (order : Nat → Nat) (m n : Macroblocks) : Prop where
  width : n.width = m.width
  height : n.height = m.height
  variance : Reordered order m.variance n.variance
  mcVariance : Reordered order m.mcVariance n.mcVariance
  mean : Reordered order m.mean n.mean
  intra : Reordered order m.intra n.intra

/-- The order of positions from right to left. -/
def leftRight (m : Macroblocks) (i : Nat) : Nat := i / m.width * m.width + (m.width - 1 - i % m.width)

/-- The order of positions from the bottom up. -/
def upsideDown (m : Macroblocks) (i : Nat) : Nat := (m.height - 1 - i / m.width) * m.width + i % m.width

variable {order : Nat → Nat} {m n : Macroblocks}

theorem IsFull.size_eq (h : m.IsFull) : m.size = m.width * m.height := by
  simp [size, h.variance, h.mcVariance, h.mean, h.intra]

theorem Rearranged.toList (h : Rearranged order m n) : Reordered order m.toList n.toList :=
  (((h.variance.zip h.mcVariance).zip h.mean).zip h.intra).map _

end Macroblocks

namespace MaskingSettings

-- ---------------------------------------------------------------------------
-- Distances
-- ---------------------------------------------------------------------------

section Distances

variable {σ : Type} [Scalar σ] {position length : Nat}

/-- A distance is 0, or a part of the margin. -/
theorem borderDistance_cases (h : position < length) : (borderDistance position length : σ) = 0.0 ∨
    ∃ n, n ≤ length / 5 ∧ 0 < length / 5 ∧
      (borderDistance position length : σ) = Scalar.ofNat n / Scalar.ofNat (length / 5) := by
  simp only [borderDistance]
  split
  · exact .inl rfl
  · next hmargin =>
    split
    · exact .inr ⟨_, Nat.sub_le _ _, Nat.pos_of_ne_zero hmargin, rfl⟩
    · split
      · exact .inr ⟨_, by omega, Nat.pos_of_ne_zero hmargin, rfl⟩
      · exact .inl rfl

theorem borderDistance_zero (h : 5 ≤ length) :
    (borderDistance 0 length : σ) = Scalar.ofNat (length / 5) / Scalar.ofNat (length / 5) := by
  have hmargin : 0 < length / 5 := Nat.div_pos h (by decide)
  simp only [borderDistance, if_neg hmargin.ne', if_pos hmargin, Nat.sub_zero]

/-- Positions that lie as far before the end of the first fifth as behind the beginning of the last are at the
    same distance. -/
theorem borderDistance_opposite (opposite : Nat) (h : position + opposite = 4 * length / 5 + length / 5) :
    (borderDistance opposite length : σ) = borderDistance position length := by
  have hfifths : length / 5 ≤ 4 * length / 5 := Nat.div_le_div_right (by omega)
  simp only [borderDistance]
  split
  · rfl
  · obtain hnear | hmiddle | hfar : position < length / 5 ∨
        length / 5 ≤ position ∧ position ≤ 4 * length / 5 ∨ 4 * length / 5 < position := by omega
    · rw [if_pos hnear, if_neg (by omega), if_pos (by omega)]
      congr 2
      omega
    · rw [if_neg (by omega), if_neg (by omega), if_neg (by omega), if_neg (by omega)]
    · rw [if_pos (by omega), if_neg (by omega), if_pos hfar]
      congr 2
      omega

/-- Opposite positions of an axis are at the same distance. -/
theorem borderDistance_mirrored (hlength : ¬ 5 ∣ length) (h : position < length) :
    (borderDistance (length - 1 - position) length : σ) = borderDistance position length :=
  borderDistance_opposite _ (by omega)

/-- In an axis of a multiple of five, they would be opposite if there were one more position. -/
theorem borderDistance_mirrored_of_dvd (hlength : 5 ∣ length) (h : position < length) :
    (borderDistance (length - position) length : σ) = borderDistance position length :=
  borderDistance_opposite _ (by omega)

/-- There, the inner edge of the first fifth is opposite to a position outside of the last. -/
theorem borderDistance_inner_edge (hlength : 5 ∣ length) (h : 5 ≤ length) :
    (borderDistance (length / 5 - 1) length : σ) = Scalar.ofNat 1 / Scalar.ofNat (length / 5) ∧
      (borderDistance (length - 1 - (length / 5 - 1)) length : σ) = 0.0 := by
  have hmargin : 0 < length / 5 := Nat.div_pos h (by decide)
  simp only [borderDistance, if_neg hmargin.ne']
  constructor
  · rw [if_pos (by omega), Nat.sub_sub_self hmargin]
  · rw [if_neg (by omega), if_neg (by omega)]

end Distances

section Single

variable {position length : Nat}

theorem borderDistance_bounds (h : position < length) (hlength : length < 2 ^ 62) :
    (0.0 : Float32) ≤ borderDistance position length ∧ borderDistance position length ≤ (1.0 : Float32) := by
  obtain hzero | ⟨part, hpart, hmargin, heq⟩ := borderDistance_cases (σ := Float32) h
  · rw [hzero]
    decide +kernel
  · rw [heq]
    exact Single.part_bounds hpart hmargin (by omega)

theorem borderDistance_near_edge (h : 5 ≤ length) (hlength : length < 2 ^ 62) :
    (borderDistance 0 length : Float32) = 1.0 := by
  rw [borderDistance_zero h]
  exact Single.part_self (by omega) (by omega)

/-- Opposite positions are at the same distance just when five does not divide the length. -/
theorem borderDistance_mirrored_iff (h : 5 ≤ length) (hlength : length < 2 ^ 62) :
    (∀ position < length,
      (borderDistance (length - 1 - position) length : Float32) = borderDistance position length) ↔
      ¬ 5 ∣ length := by
  refine ⟨fun hmirrored hfive => ?_, fun hfive position hposition => borderDistance_mirrored hfive hposition⟩
  obtain ⟨hinner, hopposite⟩ := borderDistance_inner_edge (σ := Float32) hfive h
  have heq := hmirrored (length / 5 - 1) (by omega)
  rw [hinner, hopposite] at heq
  exact Single.part_ne_zero (by omega) (by omega) (by omega) Nat.one_pos heq.symm

end Single

-- ---------------------------------------------------------------------------
-- Tables
-- ---------------------------------------------------------------------------

section Tables

variable {σ : Type} [Scalar σ] {order : Nat → Nat} {m n : Macroblocks}

/-- An order that keeps all macroblocks as near to the border as they were takes the lambdas along. -/
theorem lambdas_reordered (s : MaskingSettings σ) (hnormalized : s.normalized = false)
    (h : m.Rearranged order n)
    (hnear : ∀ i < m.size,
      (borderNearness m.width m.height (order i) : σ) = borderNearness m.width m.height i) (q : σ) :
    Reordered order (s.lambdas m q) (s.lambdas n q) := by
  have hshares : Reordered order (s.shares m) (s.shares n) := by
    simp only [shares, h.width, h.height]
    refine h.toList.map_zipIdx fun i hi a => ?_
    rw [Macroblocks.length_toList] at hi
    simp only [hnear i hi]
  simp only [lambdas, commonFactor, hnormalized, Bool.false_eq_true, if_false]
  exact hshares.map _

theorem borderNearness_eq {width height : Nat} (hpos : 0 < width) (i : Nat) :
    (borderNearness width height i : σ) =
      Scalar.max (borderDistance (i % width) width) (borderDistance (i / width) height) := by
  rw [borderNearness, max_eq_left (Nat.succ_le_of_lt hpos)]

theorem borderNearness_leftRight (hwidth : ¬ 5 ∣ m.width) (i : Nat) :
    (borderNearness m.width m.height (m.leftRight i) : σ) = borderNearness m.width m.height i := by
  have hpos : 0 < m.width := Nat.pos_of_ne_zero fun hzero => hwidth (hzero ▸ dvd_zero 5)
  have hcolumn : i % m.width < m.width := Nat.mod_lt _ hpos
  obtain ⟨hrow, hmirrored⟩ :
      m.leftRight i / m.width = i / m.width ∧ m.leftRight i % m.width = m.width - 1 - i % m.width :=
    (Nat.div_mod_unique hpos).2 ⟨by rw [Macroblocks.leftRight]; ring, by omega⟩
  rw [borderNearness_eq hpos, borderNearness_eq hpos, hrow, hmirrored, borderDistance_mirrored hwidth hcolumn]

theorem borderNearness_upsideDown (hheight : ¬ 5 ∣ m.height) {i : Nat} (hi : i < m.width * m.height) :
    (borderNearness m.width m.height (m.upsideDown i) : σ) = borderNearness m.width m.height i := by
  have hpos : 0 < m.width := Nat.pos_of_mul_pos_right (Nat.zero_lt_of_lt hi)
  have hrow : i / m.width < m.height := Nat.div_lt_of_lt_mul hi
  obtain ⟨hmirrored, hcolumn⟩ :
      m.upsideDown i / m.width = m.height - 1 - i / m.width ∧ m.upsideDown i % m.width = i % m.width :=
    (Nat.div_mod_unique hpos).2 ⟨by rw [Macroblocks.upsideDown]; ring, Nat.mod_lt _ hpos⟩
  rw [borderNearness_eq hpos, borderNearness_eq hpos, hcolumn, hmirrored, borderDistance_mirrored hheight hrow]

end Tables

-- ---------------------------------------------------------------------------
-- Mirrors
-- ---------------------------------------------------------------------------

/-- Distances lie between 0 and 1, and are 1 at the near edge of an axis of which four lengths can be counted in 64
    bits. Opposite positions, the far edge among them, are at the same distance just when five does not divide the
    length; otherwise they are as they would be with one more position. A picture that is mirrored along an axis
    whose length is no multiple of five gets the mirrored table. -/
theorem lambdas_mirrored {σ : Type} [Scalar σ] {s : MaskingSettings σ} (hnormalized : s.normalized = false)
    {m n : Macroblocks} (hm : m.IsFull) (q : σ) :
    (∀ length, 5 ≤ length → length < 2 ^ 62 →
      let distance (position : Nat) : Float32 := borderDistance position length
      (∀ position < length, 0.0 ≤ distance position ∧ distance position ≤ 1.0) ∧ distance 0 = 1.0 ∧
        ((∀ position < length, distance (length - 1 - position) = distance position) ↔ ¬ 5 ∣ length) ∧
        (5 ∣ length → ∀ position < length, distance (length - position) = distance position)) ∧
    (¬ 5 ∣ m.width → m.Rearranged m.leftRight n → Reordered m.leftRight (s.lambdas m q) (s.lambdas n q)) ∧
    (¬ 5 ∣ m.height → m.Rearranged m.upsideDown n → Reordered m.upsideDown (s.lambdas m q) (s.lambdas n q)) := by
  refine ⟨fun length h hlength => ?_, fun hwidth h => ?_, fun hheight h => ?_⟩
  · exact ⟨fun position hposition => borderDistance_bounds hposition hlength, borderDistance_near_edge h hlength,
      borderDistance_mirrored_iff h hlength,
      fun hfive position hposition => borderDistance_mirrored_of_dvd hfive hposition⟩
  · exact s.lambdas_reordered hnormalized h (fun i _ => borderNearness_leftRight hwidth i) q
  · exact s.lambdas_reordered hnormalized h (fun i hi => borderNearness_upsideDown hheight (hm.size_eq ▸ hi)) q

/-- Both edges of six macroblocks are equally far out, and so the table of a picture six macroblocks wide is
    mirrored with the picture. -/
theorem lambdas_mirrored_six_macroblocks :
    let s : MaskingSettings Float32 := { neutral with border := 0.5 }
    let m : Macroblocks := ⟨6, 1, [400, 900, 0, 0, 0, 100], .replicate 6 100, .replicate 6 128, .replicate 6 true⟩
    let n : Macroblocks := ⟨6, 1, [100, 0, 0, 0, 900, 400], .replicate 6 100, .replicate 6 128, .replicate 6 true⟩
    (borderDistance 5 6 : Float32) = 1.0 ∧ Reordered m.leftRight (s.lambdas m 1000) (s.lambdas n 1000) := by
  intro s m n
  have hm : m.IsFull := ⟨rfl, rfl, rfl, rfl⟩
  have hmirror : m.Rearranged m.leftRight n :=
    ⟨rfl, rfl, ⟨rfl, by decide⟩, ⟨rfl, by decide⟩, ⟨rfl, by decide⟩, ⟨rfl, by decide⟩⟩
  obtain ⟨hdistances, hwidth, -⟩ := lambdas_mirrored (s := s) (n := n) rfl hm 1000
  obtain ⟨-, hnear, hopposite, -⟩ := hdistances 6 (by decide) (by decide)
  exact ⟨(hopposite.2 (by decide) 0 (by decide)).trans hnear, hwidth (by decide) hmirror⟩

/-- The far edge of five macroblocks is not masked at all. -/
theorem not_mirrored_of_five :
    (borderDistance (5 - 1 - 0) 5 : Float32) ≠ borderDistance 0 5 ∧
      (borderDistance (5 - 1) 5 : Float32) = 0.0 ∧ (borderDistance 0 5 : Float32) = 1.0 := by
  decide +kernel

end MaskingSettings
end RateControl
