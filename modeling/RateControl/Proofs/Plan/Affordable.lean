-- SUMMARY: Planned quantizers are from 1 on, and a budget that carries every picture at quantizer 1 always has a plan.
import RateControl.Proofs.Plan.Budget
import RateControl.Proofs.Plan.Monotone

/-! # Affordable tables

Every trial plans quantizers from 1 on, whatever its rate factor, since the lambda range of every picture type
starts there. So no trial comes to more than the size of the pictures at quantizer 1. A budget that carries this
is never overshot, and then every search is taken. -/

namespace RateControl

open scoped Exact

variable [Precision ℝ ℝ] [Precision.IsRounding]

/-- The size of a picture at quantizer 1. -/
noncomputable def Record.sizeAtOne (r : Record ℝ) : ℝ := ({ r with plannedQuantizer := 1 } : Record ℝ).size

theorem Record.size_le_sizeAtOne {r s : Record ℝ} (hr : r.IsCoded) (hsame : r.Replans s)
    (hone : 1 ≤ s.plannedQuantizer) : s.size ≤ r.sizeAtOne :=
  have hcoded : ({ r with plannedQuantizer := 1 } : Record ℝ).IsCoded := ⟨hr.quantizer_pos, hr.texture_nonneg⟩
  Policy.size_antitone hcoded hsame one_pos hone

omit [Precision.IsRounding] in
/-- Without a buffer nothing is stuffed. -/
theorem Buffer.codedSizes_disabled {b : Buffer ℝ} (hb : b.size = 0) (table : List (Record ℝ)) :
    (b.codedSizes table : List ℝ) = table.map Record.size := by
  have hupdate (bits : Int) : (b.update bits : Logged (Event ℝ ℝ) _).value = (0, b) :=
    Policy.update_disabled hb bits
  induction table with
  | nil => rfl
  | cons r rest ih =>
    simp only [codedSizes, stuffings, hupdate, List.zipWith_cons_cons, List.map_cons] at ih ⊢
    rw [ih]
    norm_num

namespace Policy

/-! ## Quantizers -/

theorem one_le_foldl_layOut (p : Policy ℝ) {l : Layout ℝ ℝ} (hl : ∀ r ∈ l.records, 1 ≤ r.plannedQuantizer)
    (items : List ((Record ℝ × ℝ) × Nat)) :
    ∀ r ∈ (items.foldl (fun l a => (p.layOut l a.1.1 a.1.2 a.2).value) l).records, 1 ≤ r.plannedQuantizer := by
  induction items generalizing l with
  | nil => exact hl
  | cons a rest ih => exact ih (List.forall_mem_cons.2 ⟨p.one_le_replanned l a.1.1 a.1.2 a.2, hl⟩)

/-- A trial plans quantizers from 1 on. -/
theorem one_le_trial {p : Policy ℝ} {factor : ℝ} {st st' : State ℝ} {table : List (Record ℝ)} {t : Trial ℝ ℝ}
    (h : (p.trial factor st table : Attempt (Event ℝ ℝ) (Fault ℝ ℝ) _).outcome = .ok (t, st')) :
    ∀ r ∈ t.table, 1 ≤ r.plannedQuantizer := by
  obtain ⟨st₁, hgrants, -⟩ := p.outcome_grantAll_real factor st table
  rw [outcome_trial, hgrants] at h
  injection h with h
  obtain ⟨rfl, -⟩ := Prod.mk.inj h
  intro r hr
  rw [List.mem_reverse, layOutAll, Logged.value_fold] at hr
  exact p.one_le_foldl_layOut (by simp) _ r hr

/-- A plan has quantizers from 1 on. -/
theorem one_le_plan {p : Policy ℝ} {st st' : State ℝ} {table table' : List (Record ℝ)}
    (h : (p.plan st table : Attempt (Event ℝ ℝ) (Fault ℝ ℝ) _).outcome = .ok (table', st')) :
    ∀ r ∈ table', 1 ≤ r.plannedQuantizer := by
  obtain ⟨o, c, hlast, rfl, -⟩ := plan_ok h
  refine Search.forall_answers (fun _ => True) (fun _ c => ∀ r ∈ c.1.table, 1 ≤ r.plannedQuantizer)
    (fun n c o c' _ h => ⟨trivial, one_le_trial (searchTrial_ok h).1⟩) trivial Search.steps
    _ (List.mem_of_getLast? hlast)

/-! ## Sizes -/

/-- No trial comes to more than the size of its pictures at quantizer 1. -/
theorem trial_le {p : Policy ℝ} {factor : ℝ} {st : State ℝ} {table : List (Record ℝ)} {t : Trial ℝ ℝ}
    {st' : State ℝ} (h : (p.trial factor st table : Attempt (Event ℝ ℝ) (Fault ℝ ℝ) _).outcome = .ok (t, st'))
    (hbuffer : st.buffer.size = 0) (htable : ∀ r ∈ table, r.IsCoded) :
    t.total ≤ (table.map Record.sizeAtOne).sum := by
  obtain ⟨hreplans, hagree, -⟩ := trial_ok h
  have hoff : st.buffer.halfFull.size = 0 := hbuffer
  have htotal : t.total = (t.table.map Record.size).sum := by
    rw [hagree.total, Exact.foldl_add_eq_sum, Buffer.codedSizes_disabled hoff]
  have hpairs := (List.forall₂_and_left _ _).2
    ⟨one_le_trial h, ((List.forall₂_and_left _ _).2 ⟨htable, hreplans⟩).flip⟩
  have hsizes : List.Forall₂ (· ≤ ·) (t.table.map Record.size) (table.map Record.sizeAtOne) := by
    rw [List.forall₂_map_left_iff, List.forall₂_map_right_iff]
    exact hpairs.imp fun s r ⟨hone, hr, hsame⟩ => Record.size_le_sizeAtOne hr hsame hone
  rw [htotal]
  exact hsizes.sum_le_sum

/-- What stays from trial to trial: the pictures, and that there is no buffer. -/
structure Affords (table : List (Record ℝ)) (c : Carried ℝ ℝ) : Prop where
  replans : List.Forall₂ Record.Replans table c.1.table
  size_eq : c.2.buffer.size = 0

omit [Precision.IsRounding] in
/-- Another plan does not change what pictures take at quantizer 1. -/
theorem Affords.sizes {table : List (Record ℝ)} {c : Carried ℝ ℝ} (h : Affords table c) :
    (c.1.table.map Record.sizeAtOne).sum = (table.map Record.sizeAtOne).sum ∧
      ((∀ r ∈ table, r.IsCoded) → ∀ r ∈ c.1.table, r.IsCoded) := by
  obtain ⟨hreplans, -⟩ := h
  generalize c.1.table = table' at hreplans
  induction hreplans with
  | nil => simp
  | cons hsame _ ih =>
    obtain ⟨hsum, hcoded⟩ := ih
    rw [List.map_cons, List.map_cons, List.sum_cons, List.sum_cons, hsum, hsame]
    refine ⟨rfl, fun h => ?_⟩
    obtain ⟨hr, hrest⟩ := List.forall_mem_cons.1 h
    exact List.forall_mem_cons.2 ⟨⟨hr.quantizer_pos, hr.texture_nonneg⟩, hcoded hrest⟩

/-- A budget that carries all pictures at quantizer 1 is never overshot. -/
theorem Affords.searchTrial {p : Policy ℝ} {table : List (Record ℝ)} (htable : ∀ r ∈ table, r.IsCoded)
    {available : Nat} (hafford : (table.map Record.sizeAtOne).sum ≤ available) (units : Nat)
    {c : Carried ℝ ℝ} (h : Affords table c) :
    ∃ c', (p.searchTrial available units c : Attempt (Event ℝ ℝ) (Fault ℝ ℝ) _).outcome = .ok (false, c') ∧
      Affords table c' := by
  obtain ⟨hsum, hcoded⟩ := h.sizes
  obtain ⟨st₁, hgrants, -⟩ := p.outcome_grantAll_real (factorOf units) c.2 c.1.table
  obtain ⟨⟨t, st'⟩, htrial⟩ : ∃ x,
      (p.trial (factorOf units) c.2 c.1.table : Attempt (Event ℝ ℝ) (Fault ℝ ℝ) _).outcome = .ok x := by
    rw [outcome_trial, hgrants]
    exact ⟨_, rfl⟩
  obtain ⟨hreplans, -, hbuffer⟩ := trial_ok htrial
  have hle := (trial_le htrial h.size_eq (hcoded htable)).trans (hsum.trans_le hafford)
  have hfits : decide (t.total > Scalar.ofNat available) = false := by
    rw [Exact.ofNat_eq, decide_eq_false_iff_not]
    exact hle.not_gt
  refine ⟨(t, st'), ?_, Record.forall₂_replans_trans h.replans hreplans, ?_⟩
  · rw [Policy.searchTrial, Attempt.outcome_bind, htrial, ← hfits]
    rfl
  · exact (congrArg Buffer.size hbuffer).trans h.size_eq

/-- A bitrate that carries all pictures at quantizer 1 has a plan. -/
theorem plan_of_affordable {p : Policy ℝ} {st : State ℝ} {table : List (Record ℝ)}
    (hbuffer : st.buffer.size = 0) (htable : ∀ r ∈ table, r.IsCoded)
    (hfixed : fixedTotal table ≤ budget ℝ p.settings table.length)
    (hafford : (table.map Record.sizeAtOne).sum ≤ (budget ℝ p.settings table.length : ℝ)) :
    ∃ result, (p.plan st table : Attempt (Event ℝ ℝ) (Fault ℝ ℝ) _).outcome = .ok result := by
  have hstart : Affords table ((⟨table, 0.0⟩, table.foldl State.account st) : Carried ℝ ℝ) :=
    ⟨List.forall₂_same.2 fun r _ => .refl r, by rw [buffer_account, hbuffer]⟩
  obtain ⟨found, hfound, hnone⟩ := Search.run_of_never (Affords table)
    (fun n c hc => hc.searchTrial (p := p) htable hafford n) hstart
  have haccept : (accept found.overshoots found.carried.1.total (budget ℝ p.settings table.length) :
      Attempt (Event ℝ ℝ) (Fault ℝ ℝ) Unit).outcome = .ok () := by
    rw [accept, if_pos hnone]
    rfl
  refine ⟨(found.carried.1.table, { found.carried.2 with buffer := (table.foldl State.account st).buffer }),
    Attempt.bind_ok.2 ⟨(), rfl, ?_⟩⟩
  dsimp only
  rw [if_neg (Nat.not_lt.2 hfixed)]
  exact Attempt.bind_ok.2 ⟨found, hfound, Attempt.bind_ok.2 ⟨(), rfl, Attempt.bind_ok.2 ⟨(), rfl,
    Attempt.bind_ok.2 ⟨(), haccept, rfl⟩⟩⟩⟩

end Policy
end RateControl
