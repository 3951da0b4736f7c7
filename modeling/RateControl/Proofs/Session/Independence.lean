-- SUMMARY: Estimates and the decoder buffer keep apart: estimates leave the buffer alone, and estimates of a second pass depend on neither.
import RateControl.Proofs.Exact
import RateControl.Proofs.Plan.Budget
import RateControl.Proofs.Session.Unplanned
import RateControl.Proofs.Statistics.Table

/-! # Independent steps

A session holds one state for two things. Coded pictures work on the buffer and on nothing else, and estimates
leave the buffer as it is. An estimate of a single pass reads the state. One of a second pass reads the plan
only, so it answers the same whatever happened before. -/

namespace RateControl

variable {σ δ : Type} [Scalar σ] [Scalar δ] [Precision σ δ]

-- ---------------------------------------------------------------------------
-- Steps and the buffer
-- ---------------------------------------------------------------------------

namespace Step

/-- The size of a coded picture. -/
def codedSize? : Step → Option Int64
  | .drain bits => some bits
  | _           => none

/-- Whether the step changes the buffer or tells what is in it. -/
def usesBuffer : Step → Bool
  | .drain _   => true
  | .occupancy => true
  | .overview  => true
  | _          => false

end Step

/-- The buffer behind coded pictures of the given sizes. -/
def Buffer.coded (σ : Type) (b : Buffer δ) (sizes : List Int64) : Buffer δ :=
  sizes.foldl (fun b n => (b.update n.toInt : Logged (Event σ δ) _).value.2) b

/-- What a coded picture is answered that finds the buffer like this. -/
def Buffer.reply (b : Buffer δ) (bits : Int64) : Logged (Event σ δ) (Answer σ δ) := do
  let (bytes, b) ← b.update bits.toInt
  return .stuffing bytes b.occupancy

namespace Policy

theorem warmUpStep_buffer {p : Policy σ} {st st' : State δ} {i : Nat}
    (h : (p.warmUpStep st i).outcome = .ok st') : st'.buffer = st.buffer := by
  obtain ⟨g, -, h⟩ := Attempt.bind_ok.1 h
  cases h
  rfl

theorem start_buffer {p : Policy σ} {st : State δ}
    (h : (p.start : Attempt (Event σ δ) _ _).outcome = .ok st) : st.buffer = .ofSettings p.settings := by
  simp only [start] at h
  split at h
  · cases h
    rfl
  · exact Attempt.fold_induction (·.buffer = .ofSettings p.settings)
      (fun st i st' hst h => (warmUpStep_buffer h).trans hst) rfl h

end Policy

namespace Session

/-- A session is set up with the buffer of its settings. With statistics it is in a second pass. -/
theorem create_buffer {settings : Settings σ} {statistics : Option (Log σ)} {s : Session σ δ}
    (h : (create settings statistics).outcome = .ok s) :
    s.state.buffer = .ofSettings settings ∧ s.isSecondPass = statistics.isSome := by
  cases statistics with
  | none =>
    obtain ⟨hvalid, hsettings⟩ := create_ok h
    unfold create at h
    simp only [hvalid] at h
    obtain ⟨policy, -, h⟩ := Attempt.bind_ok.1 h
    obtain ⟨state, hstart, h⟩ := Attempt.bind_ok.1 h
    cases h
    rw [← hsettings]
    exact ⟨Policy.start_buffer hstart, rfl⟩
  | some log =>
    obtain ⟨-, table, htable, hplan⟩ := create_log_ok h
    obtain ⟨hreplans, hbuffer⟩ := Policy.plan_replans hplan
    have hne : s.table ≠ [] := fun hnil =>
      (Log.length_table htable).2 (List.forall₂_nil_right_iff.1 (hnil ▸ hreplans))
    exact ⟨hbuffer, by simpa [isSecondPass] using hne⟩

-- ---------------------------------------------------------------------------
-- Steps
-- ---------------------------------------------------------------------------

theorem estimateUnplanned_buffer (s : Session σ δ) (f : Frame) :
    (s.estimateUnplanned f).value.2.state.buffer = s.state.buffer := by
  obtain ⟨-, hfailed⟩ | ⟨-, _, _, _, _, hdecided⟩ := s.estimateUnplanned_cases f
  · rw [hfailed]
  · rw [hdecided]

theorem assess_buffer (s : Session σ δ) (f : Frame) : (s.assess f).value.2.state.buffer = s.state.buffer := by
  unfold assess
  split
  · unfold estimatePlanned
    cases s.record? f.picture <;> rfl
  · exact s.estimateUnplanned_buffer f

/-- Only coded pictures change the buffer. -/
theorem behind_buffer (s : Session σ δ) (step : Step) :
    (s.behind step).state.buffer = Buffer.coded σ s.state.buffer step.codedSize?.toList := by
  cases step with
  | estimate f dryRun =>
    simp only [behind, perform, Logged.value_bind, estimate_value]
    cases dryRun with
    | true => rfl
    | false => exact s.assess_buffer f
  | _ => rfl

theorem run_buffer (s : Session σ δ) (steps : List Step) :
    (s.run steps).2.state.buffer = Buffer.coded σ s.state.buffer (steps.filterMap Step.codedSize?) := by
  induction steps generalizing s with
  | nil => rfl
  | cons step rest ih =>
    rw [run_cons, ih, behind_buffer]
    cases step <;> rfl

theorem reply_drain (s : Session σ δ) (bits : Int64) :
    s.reply (.drain bits) = s.state.buffer.reply bits := rfl

/-- An estimate of a second pass is answered alike in every state. -/
theorem reply_planned (s : Session σ δ) (hpass : s.isSecondPass = true) (f : Frame) (dryRun : Bool)
    (state : State δ) :
    ({ s with state } : Session σ δ).reply (.estimate f dryRun) = s.reply (.estimate f dryRun) := by
  have hpass' : ({ s with state } : Session σ δ).isSecondPass = true := hpass
  have hrecord : ({ s with state } : Session σ δ).record? f.picture = s.record? f.picture := rfl
  simp only [reply, perform, estimate, hpass, hpass', if_true, estimatePlanned, hrecord]
  cases s.record? f.picture <;> rfl

end Session

-- ---------------------------------------------------------------------------
-- Sessions that a second pass cannot tell apart
-- ---------------------------------------------------------------------------

namespace Session

/-- Sessions with the same plan and the same buffer. -/
structure Alike (s t : Session σ δ) : Prop where
  policy : t.policy = s.policy
  table : t.table = s.table
  buffer : t.state.buffer = s.state.buffer

/-- In a second pass, what a step reads of the state is the buffer, if anything. -/
theorem reply_congr {s t : Session σ δ} (hpass : s.isSecondPass = true) (hpolicy : t.policy = s.policy)
    (htable : t.table = s.table) {step : Step}
    (hbuffer : step.usesBuffer = true → t.state.buffer = s.state.buffer) : t.reply step = s.reply step := by
  obtain ⟨policy, table, state⟩ := s
  obtain ⟨policy', table', state'⟩ := t
  dsimp only at hpolicy htable hbuffer
  subst hpolicy htable
  cases step with
  | estimate f dryRun => exact reply_planned _ hpass f dryRun state'
  | drain bits => rw [reply_drain, reply_drain, hbuffer rfl]
  | occupancy | overview =>
    simp only [reply, perform, overview, Session.occupancy, hbuffer rfl]
    rfl
  | _ => rfl

/-- What does not use the buffer is answered in a second pass as it was at the start. -/
theorem reply_run (s : Session σ δ) (hpass : s.isSecondPass = true) (steps : List Step) {step : Step}
    (h : step.usesBuffer = false) : (s.run steps).2.reply step = s.reply step :=
  reply_congr hpass (s.run_fixed steps).1 (s.run_fixed steps).2 (by simp [h])

theorem isSecondPass_behind (s : Session σ δ) (step : Step) :
    (s.behind step).isSecondPass = s.isSecondPass := by
  rw [isSecondPass, isSecondPass, behind, (s.perform_fixed step).2]

theorem Alike.behind {s t : Session σ δ} (h : Alike s t) (step : Step) :
    Alike (s.behind step) (t.behind step) where
  policy := (t.perform_fixed step).1.trans <| h.policy.trans (s.perform_fixed step).1.symm
  table := (t.perform_fixed step).2.trans <| h.table.trans (s.perform_fixed step).2.symm
  buffer := by rw [behind_buffer, behind_buffer, h.buffer]

theorem Alike.run {s t : Session σ δ} (hpass : s.isSecondPass = true) (h : Alike s t) (steps : List Step) :
    (t.run steps).1 = (s.run steps).1 := by
  induction steps generalizing s t with
  | nil => rfl
  | cons step rest ih =>
    rw [run_cons, run_cons, reply_congr hpass h.policy h.table fun _ => h.buffer,
      ih ((s.isSecondPass_behind step).trans hpass) (h.behind step)]

theorem alike_behind (s : Session σ δ) {step : Step} (h : step.usesBuffer = false) :
    Alike s (s.behind step) where
  policy := (s.perform_fixed step).1
  table := (s.perform_fixed step).2
  buffer := by
    rw [behind_buffer]
    cases step with
    | drain bits => cases h
    | _ => rfl

/-- The answers of a second pass fall into two parts: what a step answers that does not use the buffer, it
    answers at the start, and the other steps answer as if they were alone. -/
theorem run_perm (s : Session σ δ) (hpass : s.isSecondPass = true) {ι : Type} (named : List (ι × Step)) :
    (named.zip (s.run (named.map (·.2))).1).Perm
      ((named.filter (!·.2.usesBuffer)).map (fun x => (x, s.reply x.2)) ++
        (named.filter (·.2.usesBuffer)).zip (s.run ((named.filter (·.2.usesBuffer)).map (·.2))).1) := by
  induction named generalizing s with
  | nil => exact .refl _
  | cons x rest ih =>
    have hreplies : (rest.filter (!·.2.usesBuffer)).map (fun x' => (x', (s.behind x.2).reply x'.2)) =
        (rest.filter (!·.2.usesBuffer)).map (fun x' => (x', s.reply x'.2)) := by
      refine List.map_congr_left fun x' hx' => ?_
      have hbuffer : x'.2.usesBuffer = false := by simpa using (List.mem_filter.1 hx').2
      exact congrArg (x', ·) (s.reply_run hpass [x.2] hbuffer)
    have ih := ih (s.behind x.2) ((s.isSecondPass_behind x.2).trans hpass)
    rw [hreplies] at ih
    -- A step on the buffer is the first of its part. Behind any other step the part on the buffer runs as before.
    rw [List.map_cons, run_cons, List.zip_cons_cons]
    cases hx : x.2.usesBuffer with
    | true =>
      rw [List.filter_cons_of_neg (by simp [hx]), List.filter_cons_of_pos (by simp [hx]), List.map_cons,
        run_cons, List.zip_cons_cons]
      exact (ih.cons _).trans List.perm_middle.symm
    | false =>
      rw [List.filter_cons_of_pos (by simp [hx]), List.filter_cons_of_neg (by simp [hx]), List.map_cons,
        List.cons_append, ← (s.alike_behind hx).run hpass]
      exact ih.cons _

/-- Policy and table are those of the start throughout, and the buffer is that of the settings behind the
    coded pictures so far, whatever was estimated between them. An estimate of a second pass is answered
    as at the start, and a run that is reordered without touching the order of the steps on the buffer
    answers every step as before. -/
theorem run_apart {settings : Settings σ} {statistics : Option (Log σ)} {s : Session σ δ}
    (hcreate : (create settings statistics).outcome = .ok s) :
    (s.policy.settings = settings ∧ s.state.buffer = .ofSettings settings) ∧
    (∀ before : List Step,
      (s.run before).2.policy = s.policy ∧ (s.run before).2.table = s.table ∧
      (∀ n, (s.run before).2.motionCodes? n = s.motionCodes? n) ∧
      (s.run before).2.occupancy =
        (Buffer.coded σ (.ofSettings settings) (before.filterMap Step.codedSize?)).occupancy ∧
      ∀ bits, (s.run before).2.reply (.drain bits) =
        (Buffer.coded σ (.ofSettings settings) (before.filterMap Step.codedSize?)).reply bits) ∧
    (statistics.isSome = true →
      (∀ (before : List Step) (f : Frame) (dryRun : Bool),
        (s.run before).2.reply (.estimate f dryRun) = s.reply (.estimate f false)) ∧
      ∀ {ι : Type} (named named' : List (ι × Step)), named'.Perm named →
        named'.filter (·.2.usesBuffer) = named.filter (·.2.usesBuffer) →
        (named'.zip (s.run (named'.map (·.2))).1).Perm (named.zip (s.run (named.map (·.2))).1)) := by
  obtain ⟨hbuffer, hpass⟩ := create_buffer hcreate
  refine ⟨⟨(create_ok hcreate).2, hbuffer⟩, fun before => ?_, fun hsome => ?_⟩
  · obtain ⟨hpolicy, htable⟩ := s.run_fixed before
    refine ⟨hpolicy, htable, fun n => ?_, ?_, fun bits => ?_⟩
    · rw [motionCodes?, record?, htable]
      rfl
    · rw [occupancy, run_buffer, hbuffer]
    · rw [reply_drain, run_buffer, hbuffer]
  · rw [hsome] at hpass
    refine ⟨fun before f dryRun => ?_, fun named named' hperm horder => ?_⟩
    · rw [s.reply_run hpass before rfl]
      cases dryRun with
      | true => exact s.reply_dryRun f
      | false => rfl
    · refine (s.run_perm hpass named').trans (.trans ?_ (s.run_perm hpass named).symm)
      rw [horder]
      exact ((hperm.filter _).map _).append_right _

open Exact in
/-- Two planned pictures, asked for in both orders around a coded picture. -/
theorem run_apart_two_pictures :
    let settings : Settings ℚ :=
      { Settings.standard with equation := some "1", blur := 0.0, bufferSize := 40000 }
    let log : Log ℚ := .ofRecords
      [{ quantizer := 236, plannedQuantizer := 0, predictedBits := 20000 },
       { quantizer := 236, plannedQuantizer := 0, predictedBits := 10000, motionBits := 500 }]
    let first : Step := .estimate { picture := 0 } false
    let second : Step := .estimate { picture := 1 } false
    let named : List (Nat × Step) := [(0, first), (1, .drain 9000), (2, second)]
    let named' : List (Nat × Step) := [(2, second), (1, .drain 9000), (0, first)]
    ∃ s : Session ℚ ℚ,
      (create settings (some log)).outcome = .ok s ∧
      (s.run [.drain 9000, second]).2.reply first = s.reply first ∧
      (named'.zip (s.run (named'.map (·.2))).1).Perm (named.zip (s.run (named.map (·.2))).1) := by
  intro settings log first second named named'
  have h : (create settings (some log) : Attempt (Event ℚ ℚ) _ _).outcome.toOption.any
      (fun _ => true) = true := by decide +kernel
  obtain ⟨s, hs, -⟩ := Attempt.exists_ok_of_any h
  obtain ⟨-, -, hsecond⟩ := run_apart hs
  obtain ⟨hestimate, hreorder⟩ := hsecond rfl
  exact ⟨s, hs, hestimate _ _ false, hreorder named named' (List.reverse_perm named) rfl⟩

end Session
end RateControl
