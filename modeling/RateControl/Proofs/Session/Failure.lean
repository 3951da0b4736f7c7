-- SUMMARY: What an estimate without a decision leaves behind: the size it learnt and the picture it counted in a single pass, and nothing in a second pass.
import RateControl.Proofs.Session.Independence

/-! # Failed estimates

A session goes on behind an estimate that came to no decision. In a single pass the estimate had learnt the size
of the picture before and counted the picture at hand by then, and both stay. In a second pass nothing has
happened yet when a picture turns out not to be in the plan. -/

namespace RateControl.Session

variable {σ δ : Type} [Scalar σ] [Scalar δ] [Precision σ δ]

/-- An estimate of a second pass fails for pictures behind the table only. -/
theorem estimatePlanned_cases (s : Session σ δ) (f : Frame) :
    s.table.length ≤ f.picture ∧
      (s.estimatePlanned f).value = (.error (.pictureOutOfRange f.picture s.table.length), s) ∨
    f.picture < s.table.length ∧ ∃ d s', (s.estimatePlanned f).value = (.ok d, s') := by
  unfold estimatePlanned
  cases hrecord : s.record? f.picture with
  | none => exact .inl ⟨List.getElem?_eq_none_iff.1 hrecord, rfl⟩
  | some r =>
    obtain ⟨hlt, -⟩ := List.getElem?_eq_some_iff.1 hrecord
    exact .inr ⟨hlt, _, _, rfl⟩

theorem isSecondPass_run {settings : Settings σ} {statistics : Option (Log σ)} {s : Session σ δ}
    (h : (create settings statistics).outcome = .ok s) (steps : List Step) :
    (s.run steps).2.isSecondPass = statistics.isSome := by
  rw [isSecondPass, (s.run_fixed steps).2]
  exact (create_buffer h).2

/-- What a failed estimate leaves behind, in a session that was set up and has taken any steps. In a single pass
    it fails where the equation has no value. It leaves what it learnt in the model of the last picture's type,
    from the fourth picture on, and the picture in the sums of its own type; all else is as it was. In a second
    pass it fails just for pictures behind the table, and leaves nothing. -/
theorem estimate_failed {settings : Settings σ} {statistics : Option (Log σ)} {s : Session σ δ}
    (hcreate : (create settings statistics).outcome = .ok s) (before : List Step) (f : Frame) :
    let now := (s.run before).2
    let answer := (now.estimate f false).value.1
    let after := (now.estimate f false).value.2
    (statistics = none →
      ((∃ e, answer = .error e) ↔ Scalar.isNaN (now.worth f) = true) ∧
      ∀ e, answer = .error e →
        e = .equationNaN s.policy.equation.source ∧
        after = { now with state := { now.state with models := (now.learnt f).models, sums := now.sumsWith f } } ∧
        (∀ t, (t = f.lastType → f.picture ≤ 2) → after.state.models.get t = now.state.models.get t) ∧
        ∀ t, t ≠ f.pictureType → after.state.sums.get t = now.state.sums.get t) ∧
    (statistics.isSome = true →
      ((∃ e, answer = .error e) ↔ s.table.length ≤ f.picture) ∧
      ∀ e, answer = .error e → e = .pictureOutOfRange f.picture s.table.length ∧ after = now) := by
  intro now answer after
  have hpass : now.isSecondPass = statistics.isSome := isSecondPass_run hcreate before
  obtain ⟨hpolicy, htable⟩ : now.policy = s.policy ∧ now.table = s.table := s.run_fixed before
  have hvalue : (now.estimate f false).value = (now.assess f).value := now.estimate_value f false
  refine ⟨?_, fun hsome => ?_⟩
  · rintro rfl
    have hassess : now.assess f = now.estimateUnplanned f := if_neg (by simp [hpass])
    simp only [answer, after, hvalue, hassess, ← hpolicy]
    obtain ⟨hnan, hfailed⟩ | ⟨hnan, d, _, _, _, hdecided⟩ := now.estimateUnplanned_cases f
    · rw [hfailed]
      refine ⟨iff_of_true ⟨_, rfl⟩ hnan, ?_⟩
      rintro _ ⟨⟩
      exact ⟨rfl, rfl, fun t ht => now.models_learnt f ht, fun t ht => PerType.get_set_of_ne _ _ ht⟩
    · rw [hdecided]
      exact ⟨iff_of_false nofun (by simp [hnan]), nofun⟩
  · have hassess : now.assess f = now.estimatePlanned f := if_pos (hpass.trans hsome)
    simp only [answer, after, hvalue, hassess, ← htable]
    obtain ⟨hbehind, hfailed⟩ | ⟨hinside, d, s', hdecided⟩ := now.estimatePlanned_cases f
    · rw [hfailed]
      refine ⟨iff_of_true ⟨_, rfl⟩ hbehind, ?_⟩
      rintro _ ⟨⟩
      exact ⟨rfl, rfl⟩
    · rw [hdecided]
      exact ⟨iff_of_false nofun (by omega), nofun⟩

open scoped Exact in
/-- An equation that has no value for I pictures, and a picture behind a table of two. -/
theorem estimate_failed_both_passes :
    let single : Settings Float32 := { Settings.standard with equation := some "isP/isP" }
    let before : List Step := [.estimate { picture := 2, mcVarSum := 60000 } false]
    let f : Frame := { picture := 3, pictureType := .intra, varSum := 150000, lastBits := 20000 }
    let second : Settings ℚ := { Settings.standard with equation := some "1", blur := 0.0 }
    let log : Log ℚ := .ofRecords
      [{ quantizer := 236, plannedQuantizer := 0, predictedBits := 20000 },
       { quantizer := 236, plannedQuantizer := 0, predictedBits := 10000 }]
    (∃ s : Session Float32 Float, (create single none).outcome = .ok s ∧
      let now := (s.run before).2
      (now.estimate f false).value =
        (.error (.equationNaN s.policy.equation.source),
          { now with state := { now.state with models := (now.learnt f).models, sums := now.sumsWith f } })) ∧
    ∃ s : Session ℚ ℚ, (create second (some log)).outcome = .ok s ∧
      let now := (s.run before).2
      (now.estimate f false).value = (.error (.pictureOutOfRange 3 s.table.length), now) := by
  intro single before f second log
  constructor
  · have h : (create single none : Attempt (Event Float32 Float) _ _).outcome.toOption.any (fun s =>
        Scalar.isNaN ((s.run before).2.worth f)) = true := by decide +kernel
    obtain ⟨s, hs, hnan⟩ := Attempt.exists_ok_of_any h
    obtain ⟨hsingle, -⟩ := estimate_failed hs before f
    obtain ⟨hiff, hleft⟩ := hsingle rfl
    obtain ⟨e, he⟩ := hiff.2 hnan
    obtain ⟨hfault, hafter, -, -⟩ := hleft e he
    exact ⟨s, hs, Prod.ext (he.trans (congrArg _ hfault)) hafter⟩
  · have h : (create second (some log) : Attempt (Event ℚ ℚ) _ _).outcome.toOption.any (fun s =>
        s.table.length ≤ f.picture) = true := by decide +kernel
    obtain ⟨s, hs, hbehind⟩ := Attempt.exists_ok_of_any h
    obtain ⟨-, hsecond⟩ := estimate_failed hs before f
    obtain ⟨hiff, hleft⟩ := hsecond rfl
    obtain ⟨e, he⟩ := hiff.2 (of_decide_eq_true hbehind)
    obtain ⟨hfault, hafter⟩ := hleft e he
    exact ⟨s, hs, Prod.ext (he.trans (congrArg _ hfault)) hafter⟩

end RateControl.Session
