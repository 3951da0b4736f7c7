-- SUMMARY: A planned table: its quantizers lead to its sizes, and its sizes add up to its planned bits.
import Mathlib.Data.List.Forall2
import RateControl.Plan.Trial

/-! # Planned tables

A trial writes two things into each record: a quantizer, and the size of everything before the picture. The
second follows from the first, since the quantizers fix the sizes of the pictures and these fix the
stuffing. -/

namespace RateControl

variable {σ δ : Type}

/-! ## Sizes -/

/-- The records differ in their plans only. -/
def Record.Replans (r r' : Record σ) : Prop :=
  r' = { r with plannedQuantizer := r'.plannedQuantizer, plannedBits := r'.plannedBits }

theorem Record.Replans.refl (r : Record σ) : r.Replans r := rfl

theorem Record.Replans.trans {r₁ r₂ r₃ : Record σ} (h₁₂ : r₁.Replans r₂) (h₂₃ : r₂.Replans r₃) :
    r₁.Replans r₃ := by
  unfold Replans at *
  rw [h₁₂] at h₂₃
  exact h₂₃

theorem Record.forall₂_replans_trans {l₁ l₂ l₃ : List (Record σ)} (h₁₂ : List.Forall₂ Replans l₁ l₂)
    (h₂₃ : List.Forall₂ Replans l₂ l₃) : List.Forall₂ Replans l₁ l₃ := by
  induction h₁₂ generalizing l₃ with
  | nil =>
    cases h₂₃
    exact .nil
  | cons h _ ih =>
    cases h₂₃ with
    | cons h' hrest => exact .cons (h.trans h') (ih hrest)

variable [Scalar δ]

/-- Pictures change nothing about a buffer but its content. -/
@[simp] theorem Buffer.halfFull_update (b : Buffer δ) (bits : Int) :
    (b.update bits : Logged (Event σ δ) _).value.2.halfFull = b.halfFull := by
  have hdrained : (b.drained bits).1 = { b with occupancy := (b.drained bits).1.occupancy } := by
    simp only [drained]
    split <;> rfl
  unfold update
  split
  · rfl
  · simp only [Logged.value_bind]
    rw [hdrained]
    split <;> rfl

variable [Precision σ δ]

/-- The bits of a picture at its planned quantizer, without stuffing. -/
def Record.size (r : Record σ) : δ :=
  (r.bitsAt (widen r.plannedQuantizer) : Logged (Event σ δ) δ).value +
    Scalar.ofInt r.motionBits.toInt + Scalar.ofInt r.miscBits.toInt

namespace Buffer

/-- The stuffing bytes of the pictures of a table, coded one after the other. -/
def stuffings (b : Buffer δ) : List (Record σ) → List Int
  | []        => []
  | r :: rest =>
    let (n, b) := (b.update (Scalar.toInt64 (r.size : δ)) : Logged (Event σ δ) _).value
    n :: b.stuffings rest

/-- The sizes of the pictures of a table with their stuffing. -/
def codedSizes (b : Buffer δ) (table : List (Record σ)) : List δ :=
  List.zipWith (fun r n => r.size + 8.0 * Scalar.ofInt n) table (b.stuffings table)

end Buffer

/-- A table and a total that agree with each other, where `start` bits come before the table and `b` is the
    buffer before it. -/
structure Agree (b : Buffer δ) (start : δ) (table : List (Record σ)) (total : δ) : Prop where
  bits : ∀ k (h : k < table.length),
    table[k].plannedBits = Scalar.toNat64 (((b.codedSizes table).take k).foldl (· + ·) start)
  total : total = (b.codedSizes table).foldl (· + ·) start

theorem Agree.nil (b : Buffer δ) (start : δ) : Agree b start ([] : List (Record σ)) start where
  bits k h := absurd h (Nat.not_lt_zero k)
  total := rfl

theorem Agree.cons {b : Buffer δ} {start total : δ} {r : Record σ} {rest : List (Record σ)}
    (hr : r.plannedBits = Scalar.toNat64 start)
    (hrest : let u := (b.update (Scalar.toInt64 (r.size : δ)) : Logged (Event σ δ) _).value
      Agree u.2 (start + (r.size + 8.0 * Scalar.ofInt u.1)) rest total) :
    Agree b start (r :: rest) total where
  bits k h := by
    cases k with
    | zero => exact hr
    | succ k => exact hrest.bits k (Nat.lt_of_succ_lt_succ h)
  total := hrest.total

/-! ## Layouts -/

namespace Policy

variable [Scalar σ]

/-- The record that a layout adds for a candidate. -/
def replanned (p : Policy σ) (l : Layout σ δ) (r : Record σ) (q : δ) (i : Nat) : Record σ :=
  { r with
    plannedQuantizer := narrow (p.settings.shape l.buffer r q i : Logged (Event σ δ) δ).value
    plannedBits := Scalar.toNat64 l.total }

theorem value_layOut (p : Policy σ) (l : Layout σ δ) (r : Record σ) (q : δ) (i : Nat) :
    (p.layOut l r q i).value =
      let r' := p.replanned l r q i
      let u := (l.buffer.update (Scalar.toInt64 (r'.size : δ)) : Logged (Event σ δ) _).value
      ⟨r' :: l.records, l.total + (r'.size + 8.0 * Scalar.ofInt u.1), u.2⟩ := rfl

/-- The records that are added to a layout agree with what they add to its total. -/
theorem foldl_layOut (p : Policy σ) (l : Layout σ δ) (items : List ((Record σ × δ) × Nat)) :
    let l' := items.foldl (fun l a => (p.layOut l a.1.1 a.1.2 a.2).value) l
    ∃ table, l'.records = table.reverse ++ l.records ∧
      List.Forall₂ (fun a r => a.1.1.Replans r) items table ∧
      Agree l.buffer l.total table l'.total ∧ l'.buffer.halfFull = l.buffer.halfFull := by
  induction items generalizing l with
  | nil => exact ⟨[], rfl, .nil, .nil _ _, rfl⟩
  | cons a rest ih =>
    obtain ⟨table, hrecords, hreplans, hagree, hbuffer⟩ := ih (p.layOut l a.1.1 a.1.2 a.2).value
    refine ⟨p.replanned l a.1.1 a.1.2 a.2 :: table, ?_, .cons rfl hreplans, .cons rfl hagree, ?_⟩
    · rw [List.foldl_cons, hrecords, value_layOut]
      simp
    · rw [List.foldl_cons, hbuffer, value_layOut]
      exact Buffer.halfFull_update _ _

end Policy
end RateControl
