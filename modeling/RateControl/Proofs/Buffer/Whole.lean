-- SUMMARY: The decoder buffer in whole bits: its bounds, its balance, and how it rises when the channel brings more than stuffing takes.
import Mathlib

/-! # Buffers in whole bits

The rules of the decoder buffer for whole numbers of bits, without rounding. Stuffing is counted in bytes and
ends at the greatest signed 32-bit number, so it takes a limited number of bits only. A buffer that gets
no more than that at the least rate stays within its size; one that gets more rises picture by picture. -/

namespace RateControl

/-- A decoder buffer that counts whole bits. -/
structure WholeBuffer where
  size : Int
  /-- The least and greatest number of bits that the channel brings for a picture. -/
  least : Int
  greatest : Int
  minStuffing : Int

namespace WholeBuffer

/-- The greatest number of stuffing bytes. -/
def maxStuffing : Int := 2147483647

/-- What a picture leaves. -/
def drained (level bits : Int) : Int := max (level - bits) 0

/-- What the channel brings: the room but one bit, brought into the range of the rates. -/
def refill (b : WholeBuffer) (level : Int) : Int :=
  if b.size - level - 1 < b.least then b.least
  else if b.greatest < b.size - level - 1 then b.greatest
  else b.size - level - 1

/-- The level behind a picture before stuffing. -/
def filled (b : WholeBuffer) (level bits : Int) : Int :=
  drained level bits + b.refill (drained level bits)

/-- The stuffing bytes for a level beyond the size. -/
def stuffing (b : WholeBuffer) (filled : Int) : Int :=
  max (min ((filled - b.size + 7) / 8) maxStuffing) b.minStuffing

/-- The stuffing bytes of a picture, and the level behind it. -/
def update (b : WholeBuffer) (level bits : Int) : Int × Int :=
  let o := b.filled level bits
  if b.size < o then (b.stuffing o, max (o - 8 * b.stuffing o) 0) else (0, o)

/-- The channel takes nothing away, and the size is no obstacle to any level up to it. -/
structure Valid (b : WholeBuffer) : Prop where
  size_pos : 0 < b.size
  least_nonneg : 0 ≤ b.least
  greatest_nonneg : 0 ≤ b.greatest
  minStuffing_le : b.minStuffing ≤ maxStuffing

variable {b : WholeBuffer} {level bits : Int}

theorem Valid.drained_bounds (h : b.Valid) (hbits : 0 ≤ bits) (hlevel : level ≤ b.size) :
    0 ≤ drained level bits ∧ drained level bits ≤ b.size := by
  have := h.size_pos
  rw [drained]
  omega

theorem Valid.refill_nonneg (h : b.Valid) (level : Int) : 0 ≤ b.refill level := by
  have := h.least_nonneg
  have := h.greatest_nonneg
  rw [refill]
  split <;> [skip; split] <;> omega

theorem Valid.filled_bounds (h : b.Valid) (hbits : 0 ≤ bits) (hlevel : level ≤ b.size) :
    0 ≤ b.filled level bits ∧ b.filled level bits ≤ b.size + max b.least b.size := by
  obtain ⟨hlow, hhigh⟩ := h.drained_bounds hbits hlevel
  have := h.refill_nonneg (drained level bits)
  have hle : b.refill (drained level bits) ≤ max b.least b.size := by
    rw [refill]
    split <;> [skip; split] <;> omega
  rw [filled]
  omega

theorem refill_eq_min (b : WholeBuffer) (level : Int) :
    b.refill level =
      if b.size - 1 - level < b.least then b.least else min (b.size - 1 - level) b.greatest := by
  rw [refill]
  split <;> [skip; split] <;> split <;> omega

/-- Beyond the size there is only what the least rate brings. -/
theorem refill_of_overflow (h : b.size < level + b.refill level) : b.refill level = b.least := by
  unfold refill at *
  split at h <;> [skip; split at h] <;> [skip; omega; omega]
  next hless => rw [if_pos hless]

/-- Beyond the size there is something only if the least rate brings more than there is room for. -/
theorem room_lt_of_overflow (h : b.size < b.filled level bits) :
    b.size - 1 - drained level bits < b.least := by
  rw [filled, refill] at h
  split at h <;> [omega; split at h] <;> omega

theorem update_of_le (h : b.filled level bits ≤ b.size) : b.update level bits = (0, b.filled level bits) :=
  if_neg h.not_gt

theorem update_of_lt (h : b.size < b.filled level bits) :
    b.update level bits = (b.stuffing (b.filled level bits),
      max (b.filled level bits - 8 * b.stuffing (b.filled level bits)) 0) :=
  if_pos h

/-- What is beyond the size can be stuffed if all that the least rate brings can. -/
theorem Valid.overflow_le (h : b.Valid) (hleast : b.least ≤ 8 * maxStuffing) (hbits : 0 ≤ bits)
    (hlevel : level ≤ b.size) (hover : b.size < b.filled level bits) :
    b.filled level bits - b.size ≤ 8 * maxStuffing := by
  obtain ⟨-, hhigh⟩ := h.drained_bounds hbits hlevel
  rw [filled] at hover ⊢
  rw [refill_of_overflow hover]
  omega

/-- While stuffing can take what the least rate brings, it is the least that covers what is beyond the size. -/
theorem Valid.isLeast_stuffing (h : b.Valid) (hleast : b.least ≤ 8 * maxStuffing) (hbits : 0 ≤ bits)
    (hlevel : level ≤ b.size) (hover : b.size < b.filled level bits) :
    IsLeast {n | b.minStuffing ≤ n ∧ b.filled level bits - 8 * n ≤ b.size}
      (b.stuffing (b.filled level bits)) := by
  have hoverflow := h.overflow_le hleast hbits hlevel hover
  constructor
  · rw [Set.mem_ofPred_eq, stuffing]
    omega
  · rintro n ⟨hmin, hcovers⟩
    rw [stuffing]
    omega

/-- Nothing is lost where the buffer does not run dry and stuffing takes no more than there is. -/
theorem update_balance (hbits : bits ≤ level)
    (hstuffing : 8 * (b.update level bits).1 ≤ b.filled level bits) :
    (b.update level bits).2 =
      level + b.refill (drained level bits) - bits - 8 * (b.update level bits).1 := by
  have hdrained : drained level bits = level - bits := max_eq_left (by omega)
  have hfilled : b.filled level bits = level + b.refill (drained level bits) - bits := by
    rw [filled]
    omega
  by_cases hover : b.size < b.filled level bits
  · rw [update_of_lt hover] at hstuffing ⊢
    dsimp only at hstuffing ⊢
    omega
  · rw [update_of_le (not_lt.1 hover)]
    dsimp only
    omega

/-- While stuffing can take what the least rate brings, the level stays in the range, and stuffing covers
    all that is beyond it. -/
theorem Valid.update_bounds (h : b.Valid) (hleast : b.least ≤ 8 * maxStuffing) (hbits : 0 ≤ bits)
    (hlevel : level ≤ b.size) :
    0 ≤ (b.update level bits).2 ∧ (b.update level bits).2 ≤ b.size ∧
      b.filled level bits - b.size ≤ 8 * (b.update level bits).1 := by
  obtain ⟨hlow, hhigh⟩ := h.drained_bounds hbits hlevel
  have hrefill := h.refill_nonneg (drained level bits)
  have hsize := h.size_pos
  unfold update
  dsimp only
  split
  · next hover =>
    have hoverflow := h.overflow_le hleast hbits hlevel hover
    have hcovered : b.filled level bits - b.size ≤ 8 * b.stuffing (b.filled level bits) := by
      rw [stuffing]
      omega
    refine ⟨le_max_right _ _, ?_, hcovered⟩
    dsimp only
    omega
  · next hfits =>
    rw [filled] at hfits ⊢
    dsimp only
    omega

/-- If the channel brings more than stuffing can take, the level rises even behind an empty picture. -/
theorem Valid.lt_update (h : b.Valid) (hleast : 8 * maxStuffing < b.least) (hsize : b.size ≤ maxStuffing) :
    level < (b.update level 0).2 := by
  have hdrained : 0 ≤ drained level 0 ∧ level ≤ drained level 0 := by
    rw [drained]
    omega
  have hrefill : b.refill (drained level 0) = b.least := by
    rw [refill, if_pos]
    rw [maxStuffing] at *
    omega
  have hfilled : b.filled level 0 = drained level 0 + b.least := by rw [filled, hrefill]
  have hstuffing : b.stuffing (b.filled level 0) ≤ maxStuffing := max_le (min_le_right _ _) h.minStuffing_le
  unfold update
  dsimp only
  split
  · refine lt_of_lt_of_le ?_ (le_max_left _ _)
    omega
  · dsimp only
    rw [maxStuffing] at *
    omega

end WholeBuffer
end RateControl
