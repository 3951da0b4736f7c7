-- SUMMARY: What set-up and steps leave as it is, and the answer to each step of a run.
import RateControl.Proofs.Attempt
import RateControl.Session.Step

/-! # Runs

Policy and table are fixed when a session is set up. Every answer of a run is the answer of the session as
the steps before it have left it. -/

namespace RateControl

variable {σ δ : Type} [Scalar σ] [Scalar δ] [Precision σ δ]

/-! ## Set-up -/

/-- A policy keeps the settings and the directives that were read from them. -/
theorem Policy.ofSettings_ok {settings : Settings σ} {p : Policy σ}
    (h : (Policy.ofSettings settings : Attempt (Event σ δ) (Fault σ δ) (Policy σ)).outcome = .ok p) :
    p.settings = settings ∧
      (readDirectives settings : Except (Fault σ δ) (List (Directive σ))) = .ok p.directives := by
  rw [ofSettings, Attempt.outcome_tryCatch] at h
  generalize hx : Attempt.outcome _ = x at h
  cases x with
  | error e => cases h
  | ok q =>
    cases h
    obtain ⟨equation, -, hx⟩ := Attempt.bind_ok.1 hx
    obtain ⟨directives, hdirectives, hx⟩ := Attempt.bind_ok.1 hx
    cases hx
    exact ⟨rfl, by rwa [Attempt.outcome_ofExcept] at hdirectives⟩

/-- The decision that an answer brings. -/
def Answer.decision? : Answer σ δ → Option (Decision σ)
  | .decision (.ok d) => some d
  | _                 => none

omit [Scalar σ] [Scalar δ] [Precision σ δ] in
theorem Answer.decision?_eq_some {a : Answer σ δ} {d : Decision σ} :
    a.decision? = some d ↔ a = .decision (.ok d) := by
  unfold decision?
  split <;> simp_all

namespace Session

/-- A session keeps the settings that it was set up with, which have no violation. -/
theorem create_ok {settings : Settings σ} {statistics : Option (Log σ)} {s : Session σ δ}
    (h : (create settings statistics).outcome = .ok s) :
    settings.violation? statistics.isSome = none ∧ s.policy.settings = settings := by
  unfold create at h
  cases hv : settings.violation? statistics.isSome with
  | some v =>
    simp only [hv] at h
    obtain ⟨_, hthrow, -⟩ := Attempt.bind_ok.1 h
    cases hthrow
  | none =>
    simp only [hv] at h
    obtain ⟨policy, hpolicy, h⟩ := Attempt.bind_ok.1 h
    have hsettings := (Policy.ofSettings_ok hpolicy).1
    refine ⟨rfl, ?_⟩
    cases statistics with
    | none =>
      obtain ⟨state, -, h⟩ := Attempt.bind_ok.1 h
      cases h
      exact hsettings
    | some log =>
      obtain ⟨table, -, h⟩ := Attempt.bind_ok.1 h
      obtain ⟨⟨table, state⟩, -, h⟩ := Attempt.bind_ok.1 h
      cases h
      exact hsettings

/-- A second pass is set up with the policy of its settings, and with the plan of the table of its log. -/
theorem create_log_ok {settings : Settings σ} {log : Log σ} {s : Session σ δ}
    (h : (create settings (some log)).outcome = .ok s) :
    (Policy.ofSettings settings : Attempt (Event σ δ) (Fault σ δ) _).outcome = .ok s.policy ∧
      ∃ t, (log.table settings.maxBFrames settings.mbCount : Except (Fault σ δ) _) = .ok t ∧
        (s.policy.plan (.initial settings) t).outcome = .ok (s.table, s.state) := by
  have hvalid := (create_ok h).1
  unfold create at h
  simp only [hvalid] at h
  obtain ⟨policy, hpolicy, h⟩ := Attempt.bind_ok.1 h
  obtain ⟨t, htable, h⟩ := Attempt.bind_ok.1 h
  obtain ⟨⟨table, state⟩, hplan, h⟩ := Attempt.bind_ok.1 h
  cases h
  exact ⟨hpolicy, t, by rwa [Attempt.outcome_ofExcept] at htable, hplan⟩

/-- A second pass is set up where nothing on the way to its plan stops. -/
theorem create_of_plan {settings : Settings σ} {log : Log σ} {p : Policy σ} {t t' : List (Record σ)} {st : State δ}
    (hvalid : settings.violation? true = none)
    (hpolicy : (Policy.ofSettings settings : Attempt (Event σ δ) (Fault σ δ) _).outcome = .ok p)
    (htable : (log.table settings.maxBFrames settings.mbCount : Except (Fault σ δ) _) = .ok t)
    (hplan : (p.plan (.initial settings) t).outcome = .ok (t', st)) :
    (create settings (some log)).outcome = .ok ⟨p, t', st⟩ := by
  simp only [create, Option.isSome_some, hvalid, htable, Attempt.ofExcept_ok, pure_bind]
  exact Attempt.bind_ok.2 ⟨p, hpolicy, Attempt.bind_ok.2 ⟨(t', st), hplan, rfl⟩⟩

/-! ## Steps -/

theorem estimatePlanned_fixed (s : Session σ δ) (f : Frame) :
    (s.estimatePlanned f).value.2.policy = s.policy ∧
    (s.estimatePlanned f).value.2.table = s.table := by
  unfold estimatePlanned
  cases s.record? f.picture <;> exact ⟨rfl, rfl⟩

theorem estimateUnplanned_fixed (s : Session σ δ) (f : Frame) :
    (s.estimateUnplanned f).value.2.policy = s.policy ∧
    (s.estimateUnplanned f).value.2.table = s.table := by
  simp only [estimateUnplanned, Logged.value_bind]
  split <;> exact ⟨rfl, rfl⟩

/-- The estimate of the pass that the session is in. -/
def assess (s : Session σ δ) (f : Frame) :
    Logged (Event σ δ) (Except (Fault σ δ) (Decision σ) × Session σ δ) :=
  if s.isSecondPass then s.estimatePlanned f else s.estimateUnplanned f

theorem assess_fixed (s : Session σ δ) (f : Frame) :
    (s.assess f).value.2.policy = s.policy ∧ (s.assess f).value.2.table = s.table := by
  unfold assess
  split
  · exact s.estimatePlanned_fixed f
  · exact s.estimateUnplanned_fixed f

/-- An estimate is undone when the state is put back. -/
theorem restored (s : Session σ δ) (f : Frame) :
    { (s.assess f).value.2 with state := s.state } = s := by
  obtain ⟨hpolicy, htable⟩ := s.assess_fixed f
  dsimp only
  rw [hpolicy, htable]

theorem estimate_value (s : Session σ δ) (f : Frame) (dryRun : Bool) :
    (s.estimate f dryRun).value =
      ((s.assess f).value.1, if dryRun then s else (s.assess f).value.2) := by
  have h : (s.estimate f dryRun).value = ((s.assess f).value.1,
      if dryRun then { (s.assess f).value.2 with state := s.state } else (s.assess f).value.2) := by
    cases h : s.isSecondPass <;>
      simp only [estimate, assess, h, if_true, if_false, Bool.false_eq_true] <;> rfl
  rw [h, restored]

theorem estimate_fixed (s : Session σ δ) (f : Frame) (dryRun : Bool) :
    (s.estimate f dryRun).value.2.policy = s.policy ∧
    (s.estimate f dryRun).value.2.table = s.table := by
  rw [estimate_value]
  cases dryRun with
  | true => exact ⟨rfl, rfl⟩
  | false => exact s.assess_fixed f

/-- No step changes policy or table. -/
theorem perform_fixed (s : Session σ δ) (step : Step) :
    (s.perform step).value.2.policy = s.policy ∧ (s.perform step).value.2.table = s.table := by
  cases step with
  | estimate f dryRun => exact s.estimate_fixed f dryRun
  | drain bits => exact ⟨rfl, rfl⟩
  | _ => exact ⟨rfl, rfl⟩

/-- The answer to a step, with its events. -/
def reply (s : Session σ δ) (step : Step) : Logged (Event σ δ) (Answer σ δ) :=
  ⟨(s.perform step).value.1, (s.perform step).trail⟩

/-- The session behind a step. -/
def behind (s : Session σ δ) (step : Step) : Session σ δ := (s.perform step).value.2

/-- A dry run answers what an estimate for real answers. -/
theorem reply_dryRun (s : Session σ δ) (f : Frame) :
    s.reply (.estimate f true) = s.reply (.estimate f false) := by
  have hvalue : (s.estimate f true).value.1 = (s.estimate f false).value.1 := by
    rw [estimate_value, estimate_value]
  have htrail : (s.estimate f true).trail = (s.estimate f false).trail := by
    cases h : s.isSecondPass <;> simp only [estimate, h] <;> rfl
  simp only [reply, perform, Logged.value_bind]
  rw [hvalue]
  exact congrArg _ htrail

/-! ## Runs -/

theorem run_cons (s : Session σ δ) (step : Step) (rest : List Step) :
    s.run (step :: rest) =
      (s.reply step :: ((s.behind step).run rest).1, ((s.behind step).run rest).2) := rfl

theorem run_append (s : Session σ δ) (before after : List Step) :
    s.run (before ++ after) =
      ((s.run before).1 ++ ((s.run before).2.run after).1, ((s.run before).2.run after).2) := by
  induction before generalizing s with
  | nil => rfl
  | cons step before ih => rw [List.cons_append, run_cons, ih, run_cons, List.cons_append]

theorem length_run (s : Session σ δ) (steps : List Step) : (s.run steps).1.length = steps.length := by
  induction steps generalizing s with
  | nil => rfl
  | cons step rest ih => rw [run_cons, List.length_cons, ih, List.length_cons]

theorem run_fixed (s : Session σ δ) (steps : List Step) :
    (s.run steps).2.policy = s.policy ∧ (s.run steps).2.table = s.table := by
  induction steps generalizing s with
  | nil => exact ⟨rfl, rfl⟩
  | cons step rest ih =>
    obtain ⟨hpolicy, htable⟩ := s.perform_fixed step
    obtain ⟨hpolicy', htable'⟩ := ih (s.perform step).value.2
    exact ⟨hpolicy'.trans hpolicy, htable'.trans htable⟩

/-- The answer to a step of a run. -/
theorem run_answer (s : Session σ δ) {steps : List Step} {i : Nat} {step : Step}
    (h : steps[i]? = some step) :
    ((s.run steps).1[i]?).map (·.value) =
      some (((s.run (steps.take i)).2.perform step).value.1) := by
  induction steps generalizing s i with
  | nil => cases h
  | cons first rest ih =>
    cases i with
    | zero =>
      cases h
      rfl
    | succ i => exact ih (s.perform first).value.2 h

end Session
end RateControl
