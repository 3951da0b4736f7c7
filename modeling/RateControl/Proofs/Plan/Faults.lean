-- SUMMARY: The faults that a plan can stop with, and exactly when it is refused for its fixed bits.
import Mathlib
import RateControl.Plan
import RateControl.Proofs.Attempt

/-! # Faults of plans

A plan stops before its search where the budget cannot carry the fixed bits, and later where the rate equation
has no value for a picture or the search is not taken. So a fault tells which of the two it was.

Fixed bits are recorded for pictures of all types, but those of sprite and switching pictures are left out of
the total that the budget is held against. A table whose fixed bits fit only without theirs goes on to the
search. -/

namespace RateControl.Policy

variable {σ δ : Type} [Scalar σ] [Scalar δ] [Precision σ δ]

-- ---------------------------------------------------------------------------
-- Search
-- ---------------------------------------------------------------------------

theorem faults_grant (p : Policy σ) (sums : PerType (Sums δ)) (r : Record σ) (factor : δ) (i : Nat) :
    Attempt.Faults (· = .equationNaN p.equation.source) (p.grant sums r factor i) := by
  refine Attempt.faults_bind (Attempt.faults_ofLogged _) fun value => ?_
  split
  · exact Attempt.faults_stop rfl
  · refine Attempt.faults_bind (Attempt.faults_ofLogged _) fun _ => ?_
    exact Attempt.faults_bind (Attempt.faults_ofLogged _) fun _ => Attempt.faults_pure _

theorem faults_trial (p : Policy σ) (factor : δ) (st : State δ) (table : List (Record σ)) :
    Attempt.Faults (· = .equationNaN p.equation.source) (p.trial factor st table) := by
  have hgrants : Attempt.Faults (· = .equationNaN p.equation.source) (p.grantAll factor st table) := by
    refine Attempt.faults_bind (Attempt.faults_fold (fun c a => ?_) _ _) fun _ => Attempt.faults_pure _
    exact Attempt.faults_bind (p.faults_grant _ _ _ _) fun _ => Attempt.faults_pure _
  exact Attempt.faults_bind hgrants fun _ => Attempt.faults_bind (Attempt.faults_ofLogged _) fun _ => Attempt.faults_pure _

theorem faults_search (p : Policy σ) (available : Nat) (c : Carried σ δ) :
    Attempt.Faults (· = .equationNaN p.equation.source) (Search.run (p.searchTrial available) c) := by
  have htrial (units : Nat) (c : Carried σ δ) :
      Attempt.Faults (· = .equationNaN p.equation.source) (p.searchTrial available units c) := by
    refine Attempt.faults_bind (p.faults_trial _ _ _) fun _ => ?_
    exact Attempt.faults_bind (Attempt.faults_ofLogged _) fun _ => Attempt.faults_pure _
  refine Attempt.faults_fold (fun s step => ?_) _ _
  exact Attempt.faults_bind (htrial _ _) fun _ => Attempt.faults_pure _

/-- A fault of a search that was started: the equation has no value, or the search is not taken. -/
def SearchFault (p : Policy σ) (e : Fault σ δ) : Prop :=
  e = .equationNaN p.equation.source ∨ e = .noConvergence ∨ ∃ total available, e = .toleranceExceeded total available

omit [Scalar σ] [Precision σ δ] in
theorem faults_accept (p : Policy σ) (overshoots : Nat) (total : δ) (available : Nat) :
    Attempt.Faults p.SearchFault (accept overshoots total available : Attempt (Event σ δ) (Fault σ δ) Unit) := by
  unfold accept
  split
  · exact Attempt.faults_ofLogged _
  · split
    · exact Attempt.faults_stop (.inr (.inl rfl))
    · split
      · exact Attempt.faults_stop (.inr (.inr ⟨_, _, rfl⟩))
      · exact Attempt.faults_pure _

-- ---------------------------------------------------------------------------
-- Plan
-- ---------------------------------------------------------------------------

/-- Fixed bits beyond the budget are refused. -/
theorem plan_of_lt {p : Policy σ} {table : List (Record σ)} (st : State δ)
    (h : budget δ p.settings table.length < fixedTotal table) :
    (p.plan st table).outcome = .error (.bitrateTooLow (Scalar.ofNat (budget δ p.settings table.length))
      (Scalar.ofNat (fixedTotal table))) := by
  rw [plan, Attempt.outcome_bind]
  dsimp only
  rw [if_pos h]
  rfl

/-- With fixed bits within the budget the search is started. -/
theorem faults_plan_of_le {p : Policy σ} {table : List (Record σ)} (st : State δ)
    (h : fixedTotal table ≤ budget δ p.settings table.length) :
    Attempt.Faults p.SearchFault (p.plan st table) := by
  refine Attempt.faults_bind (Attempt.faults_ofLogged _) fun _ => ?_
  dsimp only
  rw [if_neg (Nat.not_lt.2 h)]
  refine Attempt.faults_bind (fun e he => .inl (p.faults_search _ _ e he)) fun found => ?_
  refine Attempt.faults_bind (Attempt.faults_ofLogged _) fun _ => ?_
  refine Attempt.faults_bind (Attempt.faults_ofLogged _) fun _ => ?_
  exact Attempt.faults_bind (p.faults_accept _ _ _) fun _ => Attempt.faults_pure _

/-- A plan stops for its fixed bits, or in its search. -/
theorem faults_plan (p : Policy σ) (st : State δ) (table : List (Record σ)) :
    Attempt.Faults (fun e => p.SearchFault e ∨ ∃ available required, e = .bitrateTooLow available required)
      (p.plan st table) := by
  intro e he
  obtain h | h := Nat.lt_or_ge (budget δ p.settings table.length) (fixedTotal table)
  · rw [plan_of_lt st h] at he
    exact .inr ⟨_, _, (Except.error.inj he).symm⟩
  · exact .inl (faults_plan_of_le st h e he)

-- ---------------------------------------------------------------------------
-- Fixed bits
-- ---------------------------------------------------------------------------

omit [Scalar σ] in
theorem fixedTotal_eq (table : List (Record σ)) :
    fixedTotal table =
      ((table.filter fun r => r.pictureType ∈ [.intra, .predicted, .bidirectional]).map fixedBits).sum := by
  rw [fixedTotal, List.sum_eq_foldl, List.foldl_map]

omit [Scalar σ] in
/-- Each picture counts for the total or is left out of it. -/
theorem fixedTotal_add_left_out (table : List (Record σ)) :
    fixedTotal table +
        ((table.filter fun r => r.pictureType ∈ [.sprite, .switching]).map fixedBits).sum =
      (table.map fixedBits).sum := by
  rw [fixedTotal_eq]
  induction table with
  | nil => rfl
  | cons r table ih =>
    rw [List.map_cons, List.sum_cons, ← ih]
    cases h : r.pictureType <;> simp [h] <;> omega

/-- A plan is refused for its fixed bits just when those of its I, P and B pictures exceed the budget, and it
    tells the budget and their sum. So it is never refused while all fixed bits fit; and while they do not, it is
    refused for their sum as long as sprite and switching pictures have none. Over exact numbers the budget is the
    whole part of bitrate times pictures by frame rate (`budget_eq`). -/
theorem plan_bitrateTooLow (p : Policy σ) (st : State δ) (table : List (Record σ)) :
    let available := budget δ p.settings table.length
    let overhead := (table.map fixedBits).sum
    let leftOut := ((table.filter fun r => r.pictureType ∈ [.sprite, .switching]).map fixedBits).sum
    (∀ a r, (p.plan st table).outcome = .error (.bitrateTooLow a r) ↔
      available < overhead - leftOut ∧ a = Scalar.ofNat available ∧ r = Scalar.ofNat (overhead - leftOut)) ∧
    (overhead ≤ available → ∀ a r, (p.plan st table).outcome ≠ .error (.bitrateTooLow a r)) ∧
    (available < overhead → leftOut = 0 →
      (p.plan st table).outcome =
        .error (.bitrateTooLow (Scalar.ofNat available) (Scalar.ofNat overhead))) := by
  intro available overhead leftOut
  have hsum : fixedTotal table + leftOut = overhead := fixedTotal_add_left_out table
  have htotal : overhead - leftOut = fixedTotal table := by omega
  have hiff (a r : δ) : (p.plan st table).outcome = .error (.bitrateTooLow a r) ↔
      available < overhead - leftOut ∧ a = Scalar.ofNat available ∧ r = Scalar.ofNat (overhead - leftOut) := by
    rw [htotal]
    obtain h | h := Nat.lt_or_ge available (fixedTotal table)
    · rw [plan_of_lt st h]
      simp [h, available, eq_comm]
    · refine iff_of_false (fun he => ?_) fun hlt => absurd hlt.1 (Nat.not_lt.2 h)
      obtain he | he | ⟨_, _, he⟩ := faults_plan_of_le st h _ he <;> cases he
  refine ⟨hiff, fun hfits a r he => ?_, fun hover hnone => ?_⟩
  · have hlt := ((hiff a r).1 he).1
    omega
  · have hall : overhead - leftOut = overhead := by omega
    rw [hiff, hall]
    exact ⟨hover, rfl, rfl⟩

/-- An I and a P picture whose fixed bits alone are too many. -/
theorem plan_bitrateTooLow_two_pictures :
    let settings : Settings Float32 := { Settings.standard with equation := some "1", blur := 0.0 }
    let table : List (Record Float32) :=
      [{ pictureType := .intra, quantizer := 236, plannedQuantizer := 236, miscBits := 7000, motionBits := -1 },
       { quantizer := 236, plannedQuantizer := 236, motionBits := 10000 }]
    ∃ p : Policy Float32,
      (ofSettings settings : Attempt (Event Float32 Float) (Fault Float32 Float) _).outcome = .ok p ∧
      (p.plan (.initial settings) table).outcome =
        .error (.bitrateTooLow (Scalar.ofNat 16000 : Float) (Scalar.ofNat 17000)) := by
  intro settings table
  have h : (ofSettings settings : Attempt (Event Float32 Float) (Fault Float32 Float) _).outcome.toOption.any
      (fun p => budget Float p.settings table.length == 16000) = true := by decide +kernel
  obtain ⟨p, hp, hbudget⟩ := Attempt.exists_ok_of_any h
  have hbudget : budget Float p.settings table.length = 16000 := eq_of_beq hbudget
  have hover : (table.map fixedBits).sum = 17000 := by decide +kernel
  obtain ⟨-, -, hrefused⟩ := plan_bitrateTooLow p (.initial settings : State Float) table
  rw [hbudget, hover] at hrefused
  exact ⟨p, hp, hrefused (by decide) (by decide +kernel)⟩

/-- A sprite picture whose fixed bits alone are too many. It is not refused for them: the search is started, and
    every trial of it overshoots. -/
theorem plan_starts_search_for_sprite :
    let settings : Settings Float32 := { Settings.standard with equation := some "1", blur := 0.0 }
    let table : List (Record Float32) :=
      [{ pictureType := .sprite, quantizer := 236, plannedQuantizer := 236, predictedBits := 1000,
         motionBits := 10000 }]
    settings.violation? true = none ∧ budget Float settings table.length = 8000 ∧
      (table.map fixedBits).sum = 10000 ∧
      ∃ p : Policy Float32,
        (ofSettings settings : Attempt (Event Float32 Float) (Fault Float32 Float) _).outcome = .ok p ∧
        (p.plan (.initial settings : State Float) table).outcome = .error .noConvergence := by
  intro settings table
  have h : (ofSettings settings : Attempt (Event Float32 Float) (Fault Float32 Float) _).outcome.toOption.any
      (fun p => match (p.plan (.initial settings : State Float) table).outcome with
        | .error .noConvergence => true
        | _                     => false) = true := by decide +kernel
  have hvalid : (settings.violation? true).isNone = true := by decide +kernel
  obtain ⟨p, hp, hplan⟩ := Attempt.exists_ok_of_any h
  refine ⟨Option.isNone_iff_eq_none.1 hvalid, by decide +kernel, by decide +kernel, p, hp, ?_⟩
  split at hplan
  · assumption
  · cases hplan

end RateControl.Policy
