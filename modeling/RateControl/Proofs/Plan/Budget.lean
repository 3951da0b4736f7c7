-- SUMMARY: A plan that is taken agrees with itself, and meets the size that the bitrate asks for.
import RateControl.Proofs.Exact
import RateControl.Plan
import RateControl.Proofs.Plan.Search
import RateControl.Proofs.Plan.Trial
import RateControl.Proofs.Validation

/-! # Plans and budgets

The plan is what the last trial of the search wrote, whether that trial overshot or not. Records and total
come out of one and the same trial, so they agree; and the total is within the budget if no trial overshot,
and close to it otherwise. -/

namespace RateControl.Policy

/-! ## Trials of a plan -/

section Trials

variable {σ δ : Type} [Scalar σ] [Scalar δ] [Precision σ δ]

/-- The answers of the trials that a plan is made from. -/
def answers (p : Policy σ) (st : State δ) (table : List (Record σ)) :
    List (Bool × Carried σ δ) :=
  Search.answers (p.searchTrial (budget δ p.settings table.length))
    ⟨0, 0, (⟨table, 0.0⟩, table.foldl State.account st)⟩ Search.steps

/-- The trials that a plan is made from. -/
def trials (p : Policy σ) (st : State δ) (table : List (Record σ)) : List (Trial σ δ) :=
  (p.answers st table).map (·.2.1)

theorem searchTrial_ok {p : Policy σ} {available units : Nat} {c c' : Carried σ δ} {o : Bool}
    (h : (p.searchTrial available units c).outcome = .ok (o, c')) :
    (p.trial (factorOf units) c.2 c.1.table).outcome = .ok c' ∧
      o = decide (c'.1.total > Scalar.ofNat available) := by
  obtain ⟨⟨t, st⟩, htrial, h⟩ := Attempt.bind_ok.1 h
  cases h
  exact ⟨htrial, rfl⟩

omit [Scalar σ] in
theorem buffer_account (st : State δ) (table : List (Record σ)) :
    (table.foldl State.account st).buffer = st.buffer := by
  induction table generalizing st with
  | nil => rfl
  | cons r rest ih => exact ih (st.account r)

/-- What the answer of a trial meets: it replans the table, agrees with its own total, and overshoots just
    when this total is greater than the budget. -/
structure Meets (p : Policy σ) (st : State δ) (table : List (Record σ)) (overshoots : Bool)
    (c : Carried σ δ) : Prop where
  replans : List.Forall₂ Record.Replans table c.1.table
  agree : Agree st.buffer.halfFull 0.0 c.1.table c.1.total
  overshoots_eq : overshoots = decide (c.1.total > Scalar.ofNat (budget δ p.settings table.length))

theorem forall_answers (p : Policy σ) (st : State δ) (table : List (Record σ)) :
    ∀ a ∈ p.answers st table, p.Meets st table a.1 a.2 := by
  -- What goes on from trial to trial: the pictures stay, and so does all of the buffer but its content.
  let Inv (c : Carried σ δ) : Prop :=
    List.Forall₂ Record.Replans table c.1.table ∧ c.2.buffer.halfFull = st.buffer.halfFull
  refine Search.forall_answers Inv (p.Meets st table) (fun n c o c' hc h => ?_) ?_ Search.steps
  · obtain ⟨htrial, ho⟩ := searchTrial_ok h
    obtain ⟨hreplans, hagree, hbuffer⟩ := trial_ok htrial
    have hreplans := Record.forall₂_replans_trans hc.1 hreplans
    rw [hc.2] at hagree hbuffer
    exact ⟨⟨hreplans, hbuffer⟩, hreplans, hagree, ho⟩
  · exact ⟨List.forall₂_same.2 fun r _ => .refl r, by rw [buffer_account]⟩

/-- A plan is the table of the last trial, if the search is taken. -/
theorem plan_ok {p : Policy σ} {st st' : State δ} {table table' : List (Record σ)}
    (h : (p.plan st table).outcome = .ok (table', st')) :
    ∃ o c, (p.answers st table).getLast? = some (o, c) ∧ table' = c.1.table ∧
      st' = { c.2 with buffer := st.buffer } ∧
      (p.answers st table).length = Search.trialCount ∧
      (accept ((p.answers st table).countP (·.1)) c.1.total (budget δ p.settings table.length) :
        Attempt (Event σ δ) (Fault σ δ) Unit).outcome = .ok () := by
  unfold plan at h
  obtain ⟨_, -, h⟩ := Attempt.bind_ok.1 h
  dsimp only at h
  split at h
  · cases h
  · obtain ⟨found, hfound, h⟩ := Attempt.bind_ok.1 h
    obtain ⟨_, -, h⟩ := Attempt.bind_ok.1 h
    obtain ⟨_, -, h⟩ := Attempt.bind_ok.1 h
    obtain ⟨_, haccept, h⟩ := Attempt.bind_ok.1 h
    cases h
    obtain ⟨hlength, hcount, o, hlast⟩ := Search.run_ok hfound
    rw [hcount] at haccept
    exact ⟨o, found.carried, hlast, rfl, by rw [buffer_account], hlength, haccept⟩

/-- A plan changes nothing about its table but the plan, and nothing about the buffer. -/
theorem plan_replans {p : Policy σ} {st st' : State δ} {table table' : List (Record σ)}
    (h : (p.plan st table).outcome = .ok (table', st')) :
    List.Forall₂ Record.Replans table table' ∧ st'.buffer = st.buffer := by
  obtain ⟨o, c, hlast, rfl, rfl, -, -⟩ := plan_ok h
  exact ⟨(p.forall_answers st table _ (List.mem_of_getLast? hlast)).replans, rfl⟩

/-- The planned bits of a picture are the coded size of the pictures before it. -/
theorem plannedBits_of_plan {p : Policy σ} {st st' : State δ} {table table' : List (Record σ)} {k : Nat}
    {r : Record σ} (h : (p.plan st table).outcome = .ok (table', st')) (hr : table'[k]? = some r) :
    r.plannedBits = Scalar.toNat64 (((st.buffer.halfFull.codedSizes table').take k).foldl (· + ·) (0.0 : δ)) := by
  obtain ⟨o, c, hlast, rfl, rfl, -, -⟩ := plan_ok h
  obtain ⟨hk, rfl⟩ := List.getElem?_eq_some_iff.1 hr
  exact (p.forall_answers st table _ (List.mem_of_getLast? hlast)).agree.bits k hk

end Trials

/-! ## Exact budgets -/

section Budgets

open scoped Exact

variable {σ K : Type} [Scalar σ] [Field K] [LinearOrder K] [IsStrictOrderedRing K] [FloorRing K]
  [Transcendental K]

/-- The whole bits that the bitrate of valid settings allows, cut off at the end of the unsigned range. -/
theorem budget_eq {s : Settings σ} {secondPass : Bool} (hvalid : s.violation? secondPass = none)
    (n : Nat) :
    (budget K s n : Int) =
      min ⌊(s.bitrate.toInt : K) * n / s.frameRate⌋ 18446744073709551615 := by
  have hrate : (0 : K) ≤ s.frameRate := by
    simp only [Settings.frameRate, TimeBase.picturesPerSecond, Exact.ofNat_eq]
    positivity
  have hbitrate : (0 : K) ≤ s.bitrate.toInt := by exact_mod_cast (s.bitrate_pos hvalid).le
  have hfloor : 0 ≤ ⌊(s.bitrate.toInt : K) * n / s.frameRate⌋ :=
    Int.floor_nonneg.2 (div_nonneg (mul_nonneg hbitrate (Nat.cast_nonneg n)) hrate)
  rw [budget, Exact.toNat64_eq, Exact.ofInt_eq, Exact.ofNat_eq]
  omega

omit [Scalar σ] in
/-- A search is taken where no trial overshot, or where the size is within one percent of the budget. -/
theorem accept_ok {overshoots available : Nat} {total : K}
    (h : (accept overshoots total available : Attempt (Event σ K) (Fault σ K) Unit).outcome = .ok ()) :
    overshoots = 0 ∨ 0.99 * (available : K) ≤ total ∧ total ≤ 1.01 * available := by
  unfold accept at h
  split at h
  · next hnone => exact .inl hnone
  · split at h
    · cases h
    · split at h
      · cases h
      · next hnear =>
        right
        rw [Exact.abs_eq, Exact.ofNat_eq, gt_iff_lt, not_lt, abs_le] at hnear
        obtain ⟨hlow, hhigh⟩ := hnear
        norm_num at hlow hhigh
        have hpos : (0 : K) < available := by
          -- With nothing available the quotient is 0, which is far from 1.
          rcases Nat.eq_zero_or_pos available with rfl | hpos
          · norm_num at hlow
          · exact_mod_cast hpos
        have hlow : 99 / 100 ≤ total / available := by linarith
        rw [le_div_iff₀ hpos] at hlow
        rw [div_le_iff₀ hpos] at hhigh
        norm_num
        exact ⟨hlow, hhigh⟩

variable [Precision σ K]

/-- A plan that is taken: the planned bits of a picture are the sizes of the pictures before it, all sizes
    together are at most one percent over the budget, and at most one percent under it if some trial
    overshot; and the buffer is as it was. -/
theorem plan_meets_budget {p : Policy σ} {secondPass : Bool}
    (hvalid : p.settings.violation? secondPass = none) {st st' : State K} {table table' : List (Record σ)}
    (hplan : (p.plan st table).outcome = .ok (table', st')) :
    let sizes : List K := st.buffer.halfFull.codedSizes table'
    let available : Int :=
      min ⌊(p.settings.bitrate.toInt : K) * table.length / p.settings.frameRate⌋ 18446744073709551615
    List.Forall₂ Record.Replans table table' ∧
    (∀ k (h : k < table'.length), table'[k].plannedBits = Scalar.toNat64 (sizes.take k).sum) ∧
    sizes.sum ≤ 1.01 * (available : K) ∧
    (p.trials st table).length = Search.trialCount ∧
    ((∃ t ∈ p.trials st table, (available : K) < t.total) → 0.99 * (available : K) ≤ sizes.sum) ∧
    st'.buffer = st.buffer := by
  intro sizes available
  obtain ⟨o, c, hlast, rfl, rfl, hlength, haccept⟩ := plan_ok hplan
  have hmem := List.mem_of_getLast? hlast
  have hmeets := p.forall_answers st table
  have hbudget : ((budget K p.settings table.length : Nat) : K) = available := by
    rw [← Int.cast_natCast, budget_eq hvalid]
  have htotal : c.1.total = sizes.sum := by
    rw [(hmeets _ hmem).agree.total, Exact.foldl_add_eq_sum]
  -- No trial overshot just when the search counted none.
  have hnone : (p.answers st table).countP (·.1) = 0 ↔ ∀ t ∈ p.trials st table, t.total ≤ available := by
    rw [List.countP_eq_zero, trials, List.forall_mem_map]
    refine forall₂_congr fun a ha => ?_
    rw [(hmeets a ha).overshoots_eq, Exact.ofNat_eq, hbudget]
    simp
  have htrials : (p.trials st table).length = Search.trialCount := by rw [trials, List.length_map, hlength]
  refine ⟨(hmeets _ hmem).replans, fun k h => ?_, ?_⟩
  · rw [(hmeets _ hmem).agree.bits k h, Exact.foldl_add_eq_sum]
  · rw [← htotal]
    obtain hzero | ⟨hlow, hhigh⟩ := accept_ok haccept
    · have hall := hnone.1 hzero
      have htotal := hall c.1 (List.mem_map_of_mem hmem)
      have hpos : (0 : K) ≤ available := hbudget ▸ Nat.cast_nonneg _
      refine ⟨?_, htrials, fun ⟨t, ht, hover⟩ => absurd hover (hall t ht).not_gt, rfl⟩
      norm_num
      linarith
    · rw [hbudget] at hlow hhigh
      exact ⟨hhigh, htrials, fun _ => hlow, rfl⟩

/-- Two pictures for which some trials overshoot, and others do not. -/
theorem plan_meets_budget_two_pictures :
    let settings : Settings ℚ := { Settings.standard with equation := some "1", blur := 0.0 }
    let st : State ℚ := .initial settings
    let table : List (Record ℚ) :=
      [{ quantizer := 236, plannedQuantizer := 236, predictedBits := 20000 },
       { quantizer := 236, plannedQuantizer := 236, predictedBits := 10000, motionBits := 500 }]
    ∃ (p : Policy ℚ) (table' : List (Record ℚ)) (st' : State ℚ),
      p.settings.violation? true = none ∧ (p.plan st table).outcome = .ok (table', st') ∧
      (∃ t ∈ p.trials st table, 16000 < t.total) ∧
      0.99 * 16000 ≤ (st.buffer.halfFull.codedSizes table' : List ℚ).sum ∧
      (st.buffer.halfFull.codedSizes table' : List ℚ).sum ≤ 1.01 * 16000 := by
  intro settings st table
  have h : (ofSettings settings : Attempt (Event ℚ ℚ) (Fault ℚ ℚ) _).outcome.toOption.any (fun p =>
      (p.plan st table).outcome.toOption.any fun _ =>
        (p.settings.violation? true).isNone &&
          decide (⌊(p.settings.bitrate.toInt : ℚ) * table.length / p.settings.frameRate⌋ = 16000) &&
          (p.trials st table).any (16000 < ·.total)) = true := by decide +kernel
  obtain ⟨p, hp, h⟩ := Attempt.exists_ok_of_any h
  obtain ⟨⟨table', st'⟩, hplan, h⟩ := Attempt.exists_ok_of_any h
  simp only [Bool.and_eq_true, Option.isNone_iff_eq_none, List.any_eq_true, decide_eq_true_eq] at h
  obtain ⟨⟨hvalid, hbudget⟩, hover⟩ := h
  obtain ⟨-, -, hhigh, -, hlow, -⟩ := plan_meets_budget hvalid hplan
  have hmin : ((min 16000 18446744073709551615 : Int) : ℚ) = 16000 := by norm_num
  rw [hbudget, hmin] at hhigh hlow
  exact ⟨p, table', st', hvalid, hplan, hover, hlow hover, hhigh⟩

/-- Beyond the unsigned range the budget is cut off. Here trials overshoot all that the bitrate allows,
    and still the plan comes to two thirds of it. -/
theorem plan_misses_cut_budget :
    let settings : Settings ℚ :=
      { Settings.standard with
        equation := some "1e15", blur := 0.0, timeBase := ⟨100, 1⟩, bitrate := 300000000000000000 }
    let st : State ℚ := .initial settings
    let table : List (Record ℚ) :=
      [{ quantizer := 18000000000000000000, plannedQuantizer := 0, predictedBits := 999 }]
    ∃ (p : Policy ℚ) (table' : List (Record ℚ)) (st' : State ℚ),
      settings.violation? true = none ∧
      (ofSettings settings : Attempt (Event ℚ ℚ) (Fault ℚ ℚ) _).outcome = .ok p ∧
      (p.plan st table).outcome = .ok (table', st') ∧
      ⌊(settings.bitrate.toInt : ℚ) * table.length / settings.frameRate⌋ = 30000000000000000000 ∧
      (∃ t ∈ p.trials st table, 30000000000000000000 < t.total) ∧
      (st.buffer.halfFull.codedSizes table' : List ℚ).sum < 0.99 * 30000000000000000000 := by
  intro settings st table
  have h : (ofSettings settings : Attempt (Event ℚ ℚ) (Fault ℚ ℚ) _).outcome.toOption.any (fun p =>
      (p.plan st table).outcome.toOption.any fun planned =>
        (settings.violation? true).isNone &&
          decide (⌊(settings.bitrate.toInt : ℚ) * table.length / settings.frameRate⌋ =
            30000000000000000000) &&
          (p.trials st table).any (30000000000000000000 < ·.total) &&
          decide ((st.buffer.halfFull.codedSizes planned.1 : List ℚ).sum <
            0.99 * 30000000000000000000)) = true := by decide +kernel
  obtain ⟨p, hp, h⟩ := Attempt.exists_ok_of_any h
  obtain ⟨⟨table', st'⟩, hplan, h⟩ := Attempt.exists_ok_of_any h
  simp only [Bool.and_eq_true, Option.isNone_iff_eq_none, List.any_eq_true, decide_eq_true_eq] at h
  obtain ⟨⟨⟨hvalid, hbudget⟩, hover⟩, hmiss⟩ := h
  exact ⟨p, table', st', hvalid, hp, hplan, hbudget, hover, hmiss⟩

end Budgets

end RateControl.Policy
