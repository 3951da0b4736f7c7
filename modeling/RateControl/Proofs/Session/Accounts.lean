-- SUMMARY: The running sums of a session are those over exactly the pictures that it has counted, with or without a decision.
import RateControl.Proofs.Exact
import RateControl.Proofs.Plan.Restart
import RateControl.Proofs.Session.SetUp
import RateControl.Proofs.Session.DryRun
import RateControl.Proofs.Sums

/-! # Accounts

A single pass counts the synthetic pictures of its warm-up and the frames of its estimates. Every one of them goes
into the sums of its type. The equation has a value for it or not, and only with a value it goes into the sums of
grants and of wanted bits as well. A second pass counts its table once, before the first trial. -/

namespace RateControl

variable {σ δ : Type} [Scalar σ] [Scalar δ] [Precision σ δ]

-- ---------------------------------------------------------------------------
-- Counted pictures
-- ---------------------------------------------------------------------------

namespace Policy

/-- The synthetic pictures that a single pass starts with. -/
def warmUpPictures (δ : Type) [Scalar δ] [Precision σ δ] (p : Policy σ) : List (Record σ) :=
  if p.settings.initialComplexity == 0.0 then [] else (List.range warmUpCount).map (warmUpRecord δ p)

theorem length_warmUpPictures (p : Policy σ) :
    (p.warmUpPictures δ).length = if p.settings.initialComplexity == 0.0 then 0 else warmUpCount := by
  unfold warmUpPictures
  split
  · rfl
  · rw [List.length_map, List.length_range]

/-- The values of the rate equation for pictures that are counted one after the other, each under sums that it is
    itself a part of. -/
def equationValues (p : Policy σ) (sums : PerType (Sums δ)) : List (Record σ) → List δ
  | []        => []
  | r :: rest =>
    let sums := sums.modify r.pictureType (·.add r)
    p.equationValue sums r :: p.equationValues sums rest

omit [Scalar σ] in
theorem equationValues_append_singleton (p : Policy σ) (sums : PerType (Sums δ)) (rs : List (Record σ))
    (r : Record σ) :
    p.equationValues sums (rs ++ [r]) =
      p.equationValues sums rs ++ [p.equationValue (Sums.tally sums (rs ++ [r])) r] := by
  induction rs generalizing sums with
  | nil => rfl
  | cons first rest ih => exact congrArg _ (ih _)

/-- The state accounts for pictures, each with or without a value of the equation. The sums are those over all
    pictures; what was granted and wanted is that of the pictures with a value. -/
structure Accounts (p : Policy σ) (pictures : List (Record σ)) (decided : List Bool) (st : State δ) : Prop where
  sums_eq : st.sums = Sums.tally (.replicate .initial) pictures
  decided_eq : (p.equationValues (.replicate .initial) pictures).map (fun v : δ => !Scalar.isNaN v) = decided
  granted_eq : st.granted =
    ((p.equationValues (.replicate .initial) pictures).filter fun v => !Scalar.isNaN v).foldl (· + ·) 0.001
  wanted_eq : st.wanted = (· + p.settings.bitsPerFrame)^[decided.count true] 0.001

namespace Accounts

variable {p : Policy σ} {pictures : List (Record σ)} {decided : List Bool} {st st' : State δ}

omit [Scalar σ] in
theorem seeded : p.Accounts [] [] (State.seeded p.settings : State δ) := ⟨rfl, rfl, rfl, rfl⟩

omit [Scalar σ] in
/-- A state with the same sums accounts for the same pictures. -/
theorem congr (h : p.Accounts pictures decided st) (hsums : st'.sums = st.sums) (hgranted : st'.granted = st.granted)
    (hwanted : st'.wanted = st.wanted) : p.Accounts pictures decided st' :=
  ⟨hsums.trans h.sums_eq, h.decided_eq, hgranted.trans h.granted_eq, hwanted.trans h.wanted_eq⟩

omit [Scalar σ] in
theorem value_eq (h : p.Accounts pictures decided st) (r : Record σ) :
    p.equationValues (.replicate .initial) (pictures ++ [r]) =
      p.equationValues (.replicate .initial) pictures ++
        [p.equationValue (st.sums.modify r.pictureType (·.add r)) r] := by
  rw [equationValues_append_singleton, Sums.tally_append_singleton, h.sums_eq]

omit [Scalar σ] in
/-- One more picture, which goes into what is granted and wanted if the equation has a value for it. -/
theorem count (h : p.Accounts pictures decided st) {r : Record σ} {hasValue : Bool}
    (hsums : st'.sums = st.sums.modify r.pictureType (·.add r))
    (hvalue : Scalar.isNaN (p.equationValue st'.sums r) = !hasValue)
    (hgranted : st'.granted = if hasValue then st.granted + p.equationValue st'.sums r else st.granted)
    (hwanted : st'.wanted = if hasValue then st.wanted + p.settings.bitsPerFrame else st.wanted) :
    p.Accounts (pictures ++ [r]) (decided ++ [hasValue]) st' := by
  -- The picture is valued under the sums behind it, which are those of the new state.
  have hvalues := h.value_eq r
  rw [← hsums] at hvalues
  refine ⟨?_, ?_, ?_, ?_⟩
  · rw [hsums, h.sums_eq, Sums.tally_append_singleton]
  · simp [hvalues, h.decided_eq, hvalue]
  · rw [hvalues, List.filter_append, List.foldl_append, ← h.granted_eq, hgranted]
    cases hasValue <;> simp [hvalue]
  · rw [hwanted, List.count_append, h.wanted_eq]
    cases hasValue with
    | true => rw [List.count_singleton_self, Function.iterate_succ_apply', if_pos rfl]
    | false => rfl

end Accounts

/-- The warm-up only goes on from pictures for which the equation has a value. -/
theorem warmUpStep_ok {p : Policy σ} {st st' : State δ} {i : Nat} (h : (p.warmUpStep st i).outcome = .ok st') :
    let r := warmUpRecord δ p i
    let counted := st.account r
    let value := p.equationValue counted.sums r
    Scalar.isNaN value = false ∧ st' = { counted with
      granted := st.granted + value, wanted := st.wanted + p.settings.bitsPerFrame } := by
  intro r counted value
  obtain ⟨g, hgrant, h⟩ := Attempt.bind_ok.1 h
  cases h
  cases hvalue : Scalar.isNaN value with
  | true =>
    rw [outcome_grant_of_isNaN hvalue] at hgrant
    cases hgrant
  | false =>
    rw [outcome_grant_of_value hvalue] at hgrant
    cases hgrant
    exact ⟨rfl, rfl⟩

/-- A single pass starts with an account of its warm-up. -/
theorem accounts_start {p : Policy σ} {st : State δ}
    (h : (p.start : Attempt (Event σ δ) (Fault σ δ) _).outcome = .ok st) :
    p.Accounts (p.warmUpPictures δ) (.replicate (p.warmUpPictures δ).length true) st := by
  unfold start at h
  unfold warmUpPictures
  split
  · next hnone =>
    rw [if_pos hnone] at h
    cases h
    exact .seeded
  · next hsome =>
    rw [if_neg hsome] at h
    have hwarm := Attempt.fold_induction_before
      (fun before st => p.Accounts (before.map (warmUpRecord δ p)) (.replicate before.length true) st)
      (fun before i st st' hst hi => ?_) .seeded h
    · simpa using hwarm
    · obtain ⟨hnumber, rfl⟩ := warmUpStep_ok hi
      rw [List.map_append, List.length_append, List.length_singleton, List.replicate_succ']
      exact hst.count rfl hnumber rfl rfl

/-- No trial counts anything. -/
theorem sums_of_searchTrial {p : Policy σ} {available units : Nat} {c c' : Carried σ δ} {o : Bool}
    (h : (p.searchTrial available units c).outcome = .ok (o, c')) : c'.2.sums = c.2.sums :=
  (trial_settles (searchTrial_ok h).1).sums

/-- The table is counted before the first trial. -/
theorem sums_of_visits (p : Policy σ) (st : State δ) (table : List (Record σ)) :
    ∀ v ∈ p.visits st table, v.2.2.sums = Sums.tally st.sums table :=
  Search.forall_visits (fun c : Carried σ δ => c.2.sums = Sums.tally st.sums table)
    (fun _ _ _ _ hc h => (sums_of_searchTrial h).trans hc) (State.sums_foldl_account st table) Search.steps

/-- A plan is the work of all trials, and counts its table once. -/
theorem sums_of_plan {p : Policy σ} {st st' : State δ} {table table' : List (Record σ)}
    (h : (p.plan st table).outcome = .ok (table', st')) :
    (p.visits st table).length = Search.trialCount ∧ st'.sums = Sums.tally st.sums table := by
  obtain ⟨o, c, hlast, -, rfl, hlength, -⟩ := plan_ok h
  constructor
  · -- A search that ends has an answer for every step, and there are no more answers than visits.
    refine Nat.le_antisymm (Search.length_visits_le _ _) ?_
    rw [← hlength, answers_eq_visits]
    exact List.length_filterMap_le ..
  · let Counted (c : Carried σ δ) : Prop := c.2.sums = Sums.tally st.sums table
    refine Search.forall_answers Counted (fun _ => Counted) (fun n c o c' hc h => ?_)
      (State.sums_foldl_account st table) Search.steps _ (List.mem_of_getLast? hlast)
    have hcounted : Counted c' := (sums_of_searchTrial h).trans hc
    exact ⟨hcounted, hcounted⟩

end Policy

-- ---------------------------------------------------------------------------
-- Runs of a single pass
-- ---------------------------------------------------------------------------

namespace Step

/-- The frame of an estimate for real. -/
def realFrame? : Step → Option Frame
  | .estimate f false => some f
  | _                 => none

theorem realFrame?_eq_some {step : Step} {f : Frame} : step.realFrame? = some f ↔ step = .estimate f false := by
  unfold realFrame?
  split <;> simp_all

end Step

namespace Session

/-- The records that the estimates for real of a run are counted with. -/
def pictures (s : Session σ δ) : List Step → List (Record σ)
  | []           => []
  | step :: rest => (step.realFrame?.map s.counted).toList ++ (s.behind step).pictures rest

/-- Which of the estimates for real of a run come to a decision. -/
def decisions (s : Session σ δ) (steps : List Step) : List Bool :=
  ((steps.zip (s.run steps).1).filter (·.1.realFrame?.isSome)).map (·.2.value.decision?.isSome)

theorem decisions_cons (s : Session σ δ) (step : Step) (rest : List Step) :
    s.decisions (step :: rest) =
      (step.realFrame?.map fun _ => (s.reply step).value.decision?.isSome).toList ++
        (s.behind step).decisions rest := by
  rw [decisions, run_cons, List.zip_cons_cons]
  cases h : step.realFrame? with
  | none => rw [List.filter_cons_of_neg (by simp [h])]; rfl
  | some f => rw [List.filter_cons_of_pos (by simp [h])]; rfl

/-- Only an estimate for real changes more than the buffer. -/
theorem behind_unreal (s : Session σ δ) {step : Step} (h : step.realFrame? = none) :
    ∃ buffer, (s.behind step).state = { s.state with buffer } := by
  cases step with
  | estimate f dryRun =>
    cases dryRun with
    | true => exact ⟨_, congrArg Session.state (s.behind_trial rfl)⟩
    | false => cases h
  | _ => exact ⟨_, rfl⟩

/-- An estimate for real leaves what the estimate of its pass leaves. -/
theorem behind_real (s : Session σ δ) (f : Frame) :
    s.behind (.estimate f false) = (s.assess f).value.2 ∧
      (s.reply (.estimate f false)).value = .decision (s.assess f).value.1 := by
  simp only [behind, reply, perform, Logged.value_bind, estimate_value]
  exact ⟨rfl, rfl⟩

/-- An estimate for real is accounted for, with a value of the equation just if it comes to a decision. No other
    step changes the account. -/
theorem accounts_behind {s : Session σ δ} (hpass : s.isSecondPass = false) {pictures : List (Record σ)}
    {decided : List Bool} (h : s.policy.Accounts pictures decided s.state) (step : Step) :
    s.policy.Accounts (pictures ++ (step.realFrame?.map s.counted).toList)
      (decided ++ (step.realFrame?.map fun _ => (s.reply step).value.decision?.isSome).toList)
      (s.behind step).state := by
  cases hstep : step.realFrame? with
  | none =>
    obtain ⟨buffer, hbuffer⟩ := s.behind_unreal hstep
    simp only [hbuffer, Option.map_none, Option.toList_none, List.append_nil]
    exact h.congr rfl rfl rfl
  | some f =>
    obtain rfl := Step.realFrame?_eq_some.1 hstep
    have hassess : s.assess f = s.estimateUnplanned f := if_neg (by simp [hpass])
    have hsums : s.sumsWith f = s.state.sums.modify (s.counted f).pictureType (·.add (s.counted f)) := by
      rw [sumsWith, counted, Policy.pictureType_forecast]
    obtain ⟨hbehind, hreply⟩ := s.behind_real f
    rw [hbehind, hreply, hassess]
    obtain ⟨hnan, hfailed⟩ | ⟨hnumber, d, _, _, _, hdecided⟩ := s.estimateUnplanned_cases f
    · rw [hfailed]
      exact h.count hsums hnan rfl rfl
    · rw [hdecided]
      exact h.count hsums hnumber rfl rfl

/-- A run is accounted for step by step. -/
theorem accounts_run {s : Session σ δ} (hpass : s.isSecondPass = false) {pictures : List (Record σ)}
    {decided : List Bool} (h : s.policy.Accounts pictures decided s.state) (steps : List Step) :
    s.policy.Accounts (pictures ++ s.pictures steps) (decided ++ s.decisions steps) (s.run steps).2.state := by
  induction steps generalizing s pictures decided with
  | nil =>
    rw [Session.pictures, decisions, List.zip_nil_left, List.append_nil]
    exact (List.append_nil decided).symm ▸ h
  | cons step rest ih =>
    have hpolicy : (s.behind step).policy = s.policy := (s.perform_fixed step).1
    have hbehind := accounts_behind hpass h step
    rw [← hpolicy] at hbehind
    have hrest := ih ((s.isSecondPass_behind step).trans hpass) hbehind
    rw [hpolicy, List.append_assoc, List.append_assoc] at hrest
    rw [Session.pictures, decisions_cons, run_cons]
    exact hrest

-- ---------------------------------------------------------------------------
-- Runs of a second pass
-- ---------------------------------------------------------------------------

/-- No step of a second pass counts anything. -/
theorem sums_behind {s : Session σ δ} (hpass : s.isSecondPass = true) (step : Step) :
    (s.behind step).state.sums = s.state.sums := by
  cases hstep : step.realFrame? with
  | none =>
    obtain ⟨buffer, hbuffer⟩ := s.behind_unreal hstep
    rw [hbuffer]
  | some f =>
    obtain rfl := Step.realFrame?_eq_some.1 hstep
    rw [(s.behind_real f).1, assess, if_pos hpass, estimatePlanned]
    cases s.record? f.picture <;> rfl

theorem sums_run {s : Session σ δ} (hpass : s.isSecondPass = true) (steps : List Step) :
    (s.run steps).2.state.sums = s.state.sums := by
  induction steps generalizing s with
  | nil => rfl
  | cons step rest ih =>
    exact (ih ((s.isSecondPass_behind step).trans hpass)).trans (s.sums_behind hpass step)

-- ---------------------------------------------------------------------------
-- Totals
-- ---------------------------------------------------------------------------

/-- A single pass is set up with an account of its warm-up. -/
theorem accounts_create {settings : Settings σ} {s : Session σ δ} (h : (create settings none).outcome = .ok s) :
    s.policy.Accounts (s.policy.warmUpPictures δ) (.replicate (s.policy.warmUpPictures δ).length true) s.state := by
  have hvalid := (create_ok h).1
  unfold create at h
  simp only [hvalid] at h
  obtain ⟨policy, -, h⟩ := Attempt.bind_ok.1 h
  obtain ⟨state, hstart, h⟩ := Attempt.bind_ok.1 h
  cases h
  exact Policy.accounts_start hstart

/-- The running sums are those over exactly the pictures that were counted. In a single pass these are the
    warm-up, unless the settings have no initial complexity, and the frames that were estimated for real. All of
    them are in the sums of their types, so that no average divides by zero. Those for which the equation has a
    value are the warm-up and the frames with a decision, and only they are in what is granted and wanted. In a
    second pass it is the table, before, between and behind the trials and all through the run. -/
theorem run_totals {K : Type} [Field K] [CharZero K] (x : ExactReading δ K) (settings : Settings σ) :
    (∀ s : Session σ δ, (create settings none).outcome = .ok s → ∀ steps : List Step,
      let warmUp := s.policy.warmUpPictures δ
      let pictures := warmUp ++ s.pictures steps
      let values := s.policy.equationValues (.replicate .initial) pictures
      let st := (s.run steps).2.state
      warmUp.length = (if settings.initialComplexity == 0.0 then 0 else 1800) ∧
      x.TalliesEach st.sums pictures ∧
      (∀ t, x.value (Scalar.ofNat (st.sums.get t).count) ≠ 0) ∧
      values.map (fun v : δ => !Scalar.isNaN v) = .replicate warmUp.length true ++ s.decisions steps ∧
      x.value st.wanted =
        0.001 + (warmUp.length + (s.decisions steps).count true : Nat) * x.value settings.bitsPerFrame ∧
      x.value st.granted = 0.001 + ((values.filter fun v => !Scalar.isNaN v).map x.value).sum) ∧
    ∀ (log : Log σ) (p : Policy σ) (table : List (Record σ)),
      (Policy.ofSettings settings : Attempt (Event σ δ) (Fault σ δ) _).outcome = .ok p →
      (log.table settings.maxBFrames settings.mbCount : Except (Fault σ δ) _) = .ok table →
      let available := Policy.budget δ settings table.length
      let visits := p.visits (.initial settings : State δ) table
      (∀ v ∈ visits, x.TalliesEach v.2.2.sums table ∧
        ∀ o c, (p.searchTrial available v.1 v.2).outcome = .ok (o, c) → x.TalliesEach c.2.sums table) ∧
      ∀ s : Session σ δ, (create settings (some log)).outcome = .ok s →
        visits.length = 40 ∧ ∀ steps, x.TalliesEach (s.run steps).2.state.sums table := by
  refine ⟨fun s hs steps => ?_, fun log p table hp htable => ?_⟩
  · have hpass : s.isSecondPass = false := (create_buffer hs).2
    have hsettings : s.policy.settings = settings := (create_ok hs).2
    intro warmUp pictures values st
    have h : s.policy.Accounts pictures (.replicate warmUp.length true ++ s.decisions steps) st :=
      accounts_run hpass (accounts_create hs) steps
    have heach : x.TalliesEach st.sums pictures := h.sums_eq ▸ x.talliesEach_tally pictures
    refine ⟨?_, heach, fun t => (heach t).count_ne_zero, h.decided_eq, ?_, ?_⟩
    · rw [← hsettings]
      exact s.policy.length_warmUpPictures
    · rw [h.wanted_eq, x.value_iterate, x.value_ofScientific, hsettings, List.count_append,
        List.count_replicate_self]
    · rw [h.granted_eq, x.value_foldl, x.value_ofScientific]
  · have hsettings : p.settings = settings := (Policy.ofSettings_ok hp).1
    subst hsettings
    intro available visits
    have hstart := x.talliesEach_tally table
    refine ⟨fun v hv => ?_, fun s hs => ?_⟩
    · have hsums := p.sums_of_visits (.initial p.settings) table v hv
      refine ⟨hsums ▸ hstart, fun o c h => ?_⟩
      rw [Policy.sums_of_searchTrial h]
      exact hsums ▸ hstart
    · obtain ⟨hpolicy, t, ht, hplan⟩ := create_log_ok hs
      obtain rfl : s.policy = p := Except.ok.inj (hpolicy.symm.trans hp)
      obtain rfl : t = table := Except.ok.inj (ht.symm.trans htable)
      obtain ⟨hlength, hsums⟩ := Policy.sums_of_plan hplan
      refine ⟨hlength, fun steps => ?_⟩
      rw [sums_run (create_buffer hs).2, hsums]
      exact hstart

open scoped Exact in
/-- Two P pictures with a decision and an I picture without one, around a dry run; and a table of two pictures. -/
theorem run_totals_both_passes :
    let single : Settings (WithNaN ℚ) := { Settings.standard with equation := some "isP/isP" }
    let steps : List Step :=
      [.estimate { mcVarSum := 60000 } false, .estimate { picture := 1 } true, .drain 8000,
       .estimate { picture := 1, pictureType := .intra, varSum := 150000 } false, .overview,
       .estimate { picture := 2, mcVarSum := 60000 } false]
    let second : Settings ℚ := { Settings.standard with equation := some "1", blur := 0.0 }
    let log : Log ℚ := .ofRecords
      [{ quantizer := 236, plannedQuantizer := 0, predictedBits := 20000 },
       { quantizer := 236, plannedQuantizer := 0, predictedBits := 10000 }]
    (∃ s : Session (WithNaN ℚ) (WithNaN ℚ), (create single none).outcome = .ok s ∧
      let st := (s.run steps).2.state
      (st.sums.get .predicted).count = 3 ∧ (st.sums.get .intra).count = 2 ∧
      WithNaN.reading.value st.wanted = 0.001 + 2 * 8000) ∧
    ∃ (table : List (Record ℚ)) (s : Session ℚ ℚ), (create second (some log)).outcome = .ok s ∧
      table.length = 2 ∧ ExactReading.self.TalliesEach (s.run steps).2.state.sums table := by
  intro single steps second log
  constructor
  · have h : (create single none : Attempt (Event (WithNaN ℚ) (WithNaN ℚ)) _ _).outcome.toOption.any (fun s =>
        (s.decisions steps).count true = 2 ∧
        (s.pictures steps).countP (·.pictureType = .predicted) = 2 ∧
        (s.pictures steps).countP (·.pictureType = .intra) = 1) = true := by decide +kernel
    obtain ⟨s, hs, h⟩ := Attempt.exists_ok_of_any h
    obtain ⟨hdecisions, hpredicted, hintra⟩ := of_decide_eq_true h
    obtain ⟨hwarmUp, heach, -, -, hwanted, -⟩ := (run_totals WithNaN.reading single).1 s hs steps
    rw [if_pos (show (single.initialComplexity == 0.0) = true by decide +kernel)] at hwarmUp
    have hnone : s.policy.warmUpPictures (WithNaN ℚ) = [] := List.length_eq_zero_iff.1 hwarmUp
    rw [hnone, List.nil_append] at heach
    have hbits : WithNaN.reading.value single.bitsPerFrame = (8000 : ℚ) := by decide +kernel
    refine ⟨s, hs, ?_, ?_, ?_⟩
    · rw [(heach .predicted).count_eq, ← List.countP_eq_length_filter, hpredicted]
    · rw [(heach .intra).count_eq, ← List.countP_eq_length_filter, hintra]
    · rw [hwanted, hdecisions, hbits, hnone]
      norm_num
  · have h : (create second (some log) : Attempt (Event ℚ ℚ) _ _).outcome.toOption.any
        (fun _ => true) = true := by decide +kernel
    obtain ⟨s, hs, -⟩ := Attempt.exists_ok_of_any h
    obtain ⟨hpolicy, table, htable, -⟩ := create_log_ok hs
    obtain ⟨-, hsecond⟩ := (run_totals ExactReading.self second).2 log s.policy table hpolicy htable
    have hlength : table.length = 2 := (Log.length_table htable).1
    exact ⟨table, s, hs, hlength, (hsecond s hs).2 steps⟩

end Session
end RateControl
