-- SUMMARY: Number types whose sums and products are exact, and exact numbers together with values that are no numbers.
import RateControl.Proofs.Exact

/-! # Exact readings

Exact arithmetic over a field has no NaN, so over a field no equation is without a value. To speak about sums in
which nothing is rounded and about values that are no numbers at the same time, a number type is read in a field.
What is no number is read as something, too; a reading is about arithmetic only. -/

namespace RateControl

/-- A reading of a number type in a field, under which sums, products and literals are exact. -/
structure ExactReading (δ K : Type) [Scalar δ] [Field K] where
  value : δ → K
  value_add (x y : δ) : value (x + y) = value x + value y
  value_mul (x y : δ) : value (x * y) = value x * value y
  value_ofInt (n : Int) : value (Scalar.ofInt n) = n
  value_ofScientific (m : Nat) (s : Bool) (e : Nat) :
    value (OfScientific.ofScientific m s e) = OfScientific.ofScientific m s e

namespace ExactReading

variable {δ K : Type} [Scalar δ] [Field K] (x : ExactReading δ K)

theorem value_foldl (l : List δ) (first : δ) :
    x.value (l.foldl (· + ·) first) = x.value first + (l.map x.value).sum := by
  induction l generalizing first with
  | nil => simp
  | cons a rest ih => rw [List.foldl_cons, ih, x.value_add, List.map_cons, List.sum_cons, add_assoc]

/-- A value that is added any number of times. -/
theorem value_iterate (first step : δ) (n : Nat) :
    x.value ((· + step)^[n] first) = x.value first + n * x.value step := by
  induction n with
  | zero => simp
  | succ n ih =>
    rw [Function.iterate_succ_apply', x.value_add, ih]
    push_cast
    ring

end ExactReading

/-- An exact reading under which quotients are exact, too, and comparisons are those of an ordered field. What is
    computed from a value that is no number is no number either, and is not compared with anything. -/
structure OrderedReading (δ K : Type) [Scalar δ] [Field K] [LinearOrder K] extends ExactReading δ K where
  value_div (x y : δ) : value (x / y) = value x / value y
  lt_iff (x y : δ) : x < y ↔ Scalar.isNaN x = false ∧ Scalar.isNaN y = false ∧ value x < value y
  isNaN_add (x y : δ) : Scalar.isNaN (x + y) = (Scalar.isNaN x || Scalar.isNaN y)
  isNaN_mul (x y : δ) : Scalar.isNaN (x * y) = (Scalar.isNaN x || Scalar.isNaN y)
  isNaN_of_isNaN_div {x y : δ} (h : Scalar.isNaN x = true) : Scalar.isNaN (x / y) = true
  isNaN_ofInt (n : Int) : Scalar.isNaN (Scalar.ofInt n : δ) = false
  isNaN_ofScientific (m : Nat) (s : Bool) (e : Nat) :
    Scalar.isNaN (OfScientific.ofScientific m s e : δ) = false

/-! ## Exact numbers -/

section Numbers

open scoped Exact

variable {K : Type} [Field K] [LinearOrder K] [FloorRing K] [Transcendental K]

/-- Exact numbers are read as they are. -/
def ExactReading.self : ExactReading K K where
  value := id
  value_add _ _ := rfl
  value_mul _ _ := rfl
  value_ofInt _ := rfl
  value_ofScientific _ _ _ := rfl

def OrderedReading.self : OrderedReading K K where
  toExactReading := .self
  value_div _ _ := rfl
  lt_iff _ _ := by simp [ExactReading.self, Scalar.isNaN]
  isNaN_add _ _ := rfl
  isNaN_mul _ _ := rfl
  isNaN_of_isNaN_div h := h
  isNaN_ofInt _ := rfl
  isNaN_ofScientific _ _ _ := rfl

/-- An exact number, or what an operation without a result leaves: quotients by 0 are no numbers, and neither is
    what is computed from what is no number. -/
structure WithNaN (K : Type) where
  value : K
  isNaN : Bool

namespace WithNaN

def map (f : K → K) (x : WithNaN K) : WithNaN K := ⟨f x.value, x.isNaN⟩

def map₂ (f : K → K → K) (x y : WithNaN K) : WithNaN K := ⟨f x.value y.value, x.isNaN || y.isNaN⟩

/-- A comparison, which never holds of what is no number. -/
def compare (r : K → K → Bool) (x y : WithNaN K) : Bool := !x.isNaN && !y.isNaN && r x.value y.value

instance : Scalar (WithNaN K) where
  add := map₂ (· + ·)
  sub := map₂ (· - ·)
  mul := map₂ (· * ·)
  div x y := ⟨x.value / y.value, x.isNaN || y.isNaN || y.value == 0⟩
  neg := map (- ·)
  lt x y := compare (· < ·) x y
  le x y := compare (· ≤ ·) x y
  beq := compare (· == ·)
  ofScientific m s e := ⟨OfScientific.ofScientific m s e, false⟩
  decLt _ _ := inferInstanceAs (Decidable (_ = true))
  decLe _ _ := inferInstanceAs (Decidable (_ = true))
  isNaN := WithNaN.isNaN
  isFinite x := !x.isNaN
  abs := map Scalar.abs
  sqrt := map Scalar.sqrt
  exp := map Scalar.exp
  log := map Scalar.log
  pow := map₂ Scalar.pow
  floor := map Scalar.floor
  ofInt n := ⟨n, false⟩
  truncate lo hi x := if x.isNaN then max lo (min hi 0) else Scalar.truncate lo hi x.value
  ceiling lo hi x := if x.isNaN then max lo (min hi 0) else Scalar.ceiling lo hi x.value

instance : Precision (WithNaN K) (WithNaN K) where
  widen := id
  narrow := id

/-- Sums and products of numbers are exact whether or not they are marked. -/
def reading : ExactReading (WithNaN K) K where
  value := WithNaN.value
  value_add _ _ := rfl
  value_mul _ _ := rfl
  value_ofInt _ := rfl
  value_ofScientific _ _ _ := rfl

def orderedReading : OrderedReading (WithNaN K) K where
  toExactReading := reading
  value_div _ _ := rfl
  lt_iff x y := by
    change compare (· < ·) x y = true ↔ _
    simp [compare, Scalar.isNaN, reading, and_assoc]
  isNaN_add _ _ := rfl
  isNaN_mul _ _ := rfl
  isNaN_of_isNaN_div {x y} h := by
    change (x.isNaN || y.isNaN || y.value == 0) = true
    rw [show x.isNaN = true from h, Bool.true_or, Bool.true_or]
  isNaN_ofInt _ := rfl
  isNaN_ofScientific _ _ _ := rfl

end WithNaN

end Numbers

end RateControl
