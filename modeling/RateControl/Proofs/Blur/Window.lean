-- SUMMARY: The ends of a window in signed numbers of 64 bits: which windows have both, and what they hold.
import Mathlib.Tactic.Ring
import RateControl.Plan.Blur

/-! # Ends of a window

Positions are counted in signed numbers of 64 bits. There the first position of a window is always a number of its
own, but behind the last one there may be no room: then the sum wraps around, and the window is empty. -/

namespace RateControl.Blur

/-- Nothing wraps around at the ends of the window. -/
def Fits (reach i : Nat) : Prop := (first reach i).toInt = i - reach ∧ (last reach i).toInt = i + reach

/-- Whether the positions lie in each other's windows. -/
def isNear (reach i j : Nat) : Bool := i ≤ j + reach ∧ j ≤ i + reach

variable {reach i j : Nat}

theorem toInt_first (hi : i < 2 ^ 63) (hreach : reach < 2 ^ 63) : (first reach i).toInt = i - reach := by
  rw [first, Int64.toInt_sub, Int64.toInt_ofNat_of_lt hi, Int64.toInt_ofNat_of_lt hreach]
  exact Int.bmod_eq_of_le (by omega) (by omega)

theorem toInt_last (hi : i < 2 ^ 63) (hreach : reach < 2 ^ 63) :
    (last reach i).toInt = if i + reach < 2 ^ 63 then (i + reach : ℤ) else i + reach - 2 ^ 64 := by
  rw [last, Int64.toInt_add, Int64.toInt_ofNat_of_lt hi, Int64.toInt_ofNat_of_lt hreach, Int.bmod_eq_emod]
  split <;> split <;> omega

theorem fits_iff (hi : i < 2 ^ 63) (hreach : reach < 2 ^ 63) : Fits reach i ↔ i + reach < 2 ^ 63 := by
  rw [Fits, toInt_first hi hreach, toInt_last hi hreach]
  split <;> omega

/-- In a sequence to whose length the reach can be added, all windows fit. -/
theorem fits_of_length {n : Nat} (hn : n + reach ≤ 2 ^ 63) (hi : i < n) : Fits reach i :=
  (fits_iff (by omega) (by omega)).2 (by omega)

/-- A window whose ends are numbers of 64 bits holds what is near to its middle. -/
theorem inWindow_eq_isNear (hj : j < 2 ^ 63) (h : Fits reach i) : inWindow reach i j = isNear reach i j := by
  simp only [inWindow, isNear, Int64.le_iff_toInt_le, h.1, h.2, Int64.toInt_ofNat_of_lt hj, decide_eq_decide]
  omega

theorem isNear_self : isNear reach i i = true := by simp [isNear]

/-- Where the last position wraps around it comes before the first one. -/
theorem inWindow_eq_false (hi : i < 2 ^ 63) (hreach : reach < 2 ^ 63) (h : ¬ Fits reach i) :
    inWindow reach i j = false := by
  have hfirst := toInt_first hi hreach
  have hlast := toInt_last hi hreach
  rw [fits_iff hi hreach] at h
  rw [if_neg h] at hlast
  simp only [inWindow, Int64.le_iff_toInt_le, hfirst, hlast, decide_eq_false_iff_not]
  omega

end RateControl.Blur
