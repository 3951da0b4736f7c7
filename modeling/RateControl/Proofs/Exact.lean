-- SUMMARY: The formulas read over an ordered field: exact arithmetic, in which every value is a number.
import Mathlib.Algebra.Order.Floor.Ring
import Mathlib.Analysis.SpecialFunctions.Pow.Real
import Mathlib.Tactic.NormNum.OfScientific
import RateControl.Scalar

/-! # Exact arithmetic

Over an ordered field no operation rounds, and there is neither NaN nor infinity. Roots, exponentials and
logarithms are no field operations, so they come with the type. A quotient by 0 is 0, as everywhere in the
library of fields. -/

namespace RateControl

/-- The operations of a number type that lead out of the rational numbers. -/
class Transcendental (K : Type) where
  sqrt : K → K
  exp : K → K
  log : K → K
  pow : K → K → K

namespace Exact

noncomputable instance : Transcendental ℝ where
  sqrt := Real.sqrt
  exp := Real.exp
  log := Real.log
  pow := Real.rpow

/-- Formulas without roots, exponentials and logarithms can be evaluated over the rational numbers, where
    these three mean nothing. -/
instance : Transcendental ℚ where
  sqrt := id
  exp _ := 1
  log _ := 0
  pow x _ := x

variable {K : Type} [Field K] [LinearOrder K] [FloorRing K] [Transcendental K]

scoped instance : Scalar K where
  decLt := inferInstance
  decLe := inferInstance
  isNaN _ := false
  isFinite _ := true
  abs x := |x|
  sqrt := Transcendental.sqrt
  exp := Transcendental.exp
  log := Transcendental.log
  pow := Transcendental.pow
  floor x := ⌊x⌋
  ofInt n := n
  truncate lo hi x := max lo (min hi (if 0 ≤ x then ⌊x⌋ else ⌈x⌉))
  ceiling lo hi x := max lo (min hi ⌈x⌉)

/-- With one exact type for both precisions nothing is lost between them. -/
scoped instance : Precision K K where
  widen := id
  narrow := id

/-! ## Operations -/

@[simp] theorem ofInt_eq (n : Int) : (Scalar.ofInt n : K) = n := rfl

@[simp] theorem ofNat_eq (n : Nat) : (Scalar.ofNat n : K) = n := Int.cast_natCast n

@[simp] theorem abs_eq (x : K) : Scalar.abs x = |x| := rfl

@[simp] theorem max_eq (x y : K) : Scalar.max x y = max x y := by
  have hnan : Scalar.isNaN x = false := rfl
  simp only [Scalar.max, hnan, Bool.false_eq_true, false_or, max_def]

@[simp] theorem exp_eq (x : ℝ) : Scalar.exp x = Real.exp x := rfl

@[simp] theorem log_eq (x : ℝ) : Scalar.log x = Real.log x := rfl

theorem foldl_add_eq_sum (l : List K) : l.foldl (· + ·) (0.0 : K) = l.sum := by
  have hzero : (0.0 : K) = 0 := by norm_num
  rw [hzero]
  exact List.sum_eq_foldl.symm

/-- The whole part in the unsigned range: the floor, cut off at the ends of the range. -/
theorem toNat64_eq [IsStrictOrderedRing K] (x : K) :
    (Scalar.toNat64 x : Int) = max 0 (min 18446744073709551615 ⌊x⌋) := by
  have hwhole : max 0 (min 18446744073709551615 (if 0 ≤ x then ⌊x⌋ else ⌈x⌉)) =
      max 0 (min 18446744073709551615 ⌊x⌋) := by
    split
    · rfl
    · next h =>
      have hx : x ≤ 0 := (not_le.1 h).le
      have hceil : ⌈x⌉ ≤ 0 := Int.ceil_le.2 (by exact_mod_cast hx)
      have hfloor : ⌊x⌋ ≤ 0 := (Int.floor_le_ceil x).trans hceil
      rw [max_eq_left (by omega), max_eq_left (by omega)]
  simp only [Scalar.toNat64, Scalar.truncate, hwhole]
  omega

end Exact

/-! ## Single precision -/

open scoped Exact

/-- Single precision as a part of the real numbers. Its values are themselves in double precision, and
    rounding to it keeps the order and leads nothing from 1 on below 1. -/
class Precision.IsRounding [Precision ℝ ℝ] : Prop where
  widen_eq (x : ℝ) : (widen x : ℝ) = x
  narrow_mono : Monotone (narrow : ℝ → ℝ)
  one_le_narrow {x : ℝ} (h : 1 ≤ x) : 1 ≤ (narrow x : ℝ)

attribute [simp] Precision.IsRounding.widen_eq

/-- No rounding at all is a rounding. -/
instance : Precision.IsRounding where
  widen_eq _ := rfl
  narrow_mono := monotone_id
  one_le_narrow h := h

end RateControl
