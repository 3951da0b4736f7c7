-- SUMMARY: The short-term average of a single pass is a weighted mean of 1 and of the limited quantizers that went into it, whatever steps lie between them.
import RateControl.Proofs.Exact
import RateControl.Proofs.Decay
import RateControl.Proofs.Session.Accounts
import RateControl.Proofs.Session.Decision
import RateControl.Proofs.Session.Failure

/-! # The short-term average

A single pass averages the limited quantizers of its P pictures, or of all pictures where all are intra coded, and
shapes the average in their place. Sum and count of the average leak by the same share, so that the quotient stays
a weighted mean. What goes into it are the quantizers of estimates for real that come to a decision; no other step
has a part in it. -/

namespace RateControl

variable {σ δ : Type} [Scalar σ] [Scalar δ] [Precision σ δ]

-- ---------------------------------------------------------------------------
-- Averages
-- ---------------------------------------------------------------------------

namespace LeakyAverage

variable {K : Type} [Field K]

/-- Values added one after the other. -/
def addAll (a : LeakyAverage δ) (keep : δ) (qs : List δ) : LeakyAverage δ := qs.foldl (·.add keep) a

theorem value_sum_addAll (x : ExactReading δ K) (a : LeakyAverage δ) (keep : δ) (qs : List δ) :
    x.value (a.addAll keep qs).sum = decayed (x.value keep) (x.value a.sum) (qs.map x.value) := by
  induction qs generalizing a with
  | nil => rfl
  | cons q rest ih =>
    rw [List.map_cons, decayed_cons, ← x.value_mul, ← x.value_add]
    exact ih (a.add keep q)

theorem value_count_addAll [CharZero K] (x : ExactReading δ K) (a : LeakyAverage δ) (keep : δ) (qs : List δ) :
    x.value (a.addAll keep qs).count = decayedWeight (x.value keep) (x.value a.count) qs.length := by
  have hone : x.value (1.0 : δ) = 1 := by
    rw [x.value_ofScientific]
    norm_num
  induction qs generalizing a with
  | nil => rfl
  | cons q rest ih =>
    have hadd : x.value (a.add keep q).count = x.value a.count * x.value keep + 1 := by
      rw [add, x.value_add, x.value_mul, hone]
    exact (ih (a.add keep q)).trans (by rw [hadd]; rfl)

/-- A sum is a number only where all that went into it are numbers. -/
theorem isNaN_addAll [LinearOrder K] (x : OrderedReading δ K) {a : LeakyAverage δ} {keep : δ} {qs : List δ}
    (h : Scalar.isNaN (a.addAll keep qs).sum = false) :
    Scalar.isNaN a.sum = false ∧ ∀ q ∈ qs, Scalar.isNaN q = false := by
  induction qs generalizing a with
  | nil => exact ⟨h, by simp⟩
  | cons q rest ih =>
    obtain ⟨hadd, hrest⟩ := ih (a := a.add keep q) h
    rw [add, x.isNaN_add, x.isNaN_mul, Bool.or_eq_false_iff, Bool.or_eq_false_iff] at hadd
    exact ⟨hadd.1.1, List.forall_mem_cons.2 ⟨hadd.2, hrest⟩⟩

end LeakyAverage

-- ---------------------------------------------------------------------------
-- Limited quantizers
-- ---------------------------------------------------------------------------

namespace OrderedReading

variable {K : Type} [Field K] [LinearOrder K] (x : OrderedReading δ K)

/-- The value is from 1 on, if it is a number. -/
def FromOne (a : δ) : Prop := Scalar.isNaN a = false → 1 ≤ x.value a

/-- Widening leaves finite values on their side of 0 and on their side of 1. -/
def Widens (σ : Type) [Scalar σ] [Precision σ δ] : Prop := ∀ a : σ, Scalar.isFinite a = true →
  (x.value (widen a) < 0 ↔ a < 0.0) ∧ (1 < x.value (widen a) ↔ a > 1.0)

variable {x} [IsStrictOrderedRing K]

theorem value_one : x.value (1.0 : δ) = 1 := by
  rw [x.value_ofScientific]
  norm_num

theorem fromOne_atLeastOne (q : δ) : x.FromOne (History.atLeastOne q) := by
  unfold History.atLeastOne
  split
  · exact fun _ => value_one.ge
  · next h =>
    intro hq
    rw [x.lt_iff, x.isNaN_ofScientific, value_one] at h
    exact not_lt.1 fun hlt => h ⟨hq, rfl, hlt⟩

omit [IsStrictOrderedRing K] in
/-- A step up starts from 1 on, and a step down ends above a value from 1 on. -/
theorem FromOne.stepped [IsStrictOrderedRing K] {last step q : δ} (hlast : x.FromOne last) (hq : x.FromOne q)
    (hstep : 0 ≤ x.value step) : x.FromOne (History.stepped last step q) := by
  unfold History.stepped
  split
  · intro h
    rw [x.isNaN_add, Bool.or_eq_false_iff] at h
    rw [x.value_add]
    linarith [hlast h.1]
  · split
    · next h =>
      intro _
      obtain ⟨hnumber, -, hlt⟩ := (x.lt_iff _ _).1 h
      exact (hq hnumber).trans hlt.le
    · exact hq

variable {s : QuantizerSettings σ}

omit [Scalar σ] [Precision σ δ] in
theorem value_maxStep_nonneg (hs : 0 ≤ s.maxStep.toInt) : 0 ≤ x.value (History.maxStep s) := by
  rw [History.maxStep, x.value_mul, x.value_ofInt, x.value_ofInt]
  have hstep : (0 : K) ≤ s.maxStep.toInt := by exact_mod_cast hs
  exact mul_nonneg (by norm_num [lambdaPerQP]) hstep

variable {h : History δ} (hh : ∀ t, x.FromOne (h.last.get t)) (hs : 0 ≤ s.maxStep.toInt)

include hh hs

theorem fromOne_limit (t : PictureType) (q : δ) : x.FromOne (h.limit s t q).1 := by
  simp only [History.limit]
  split
  · exact (hh t).stepped (fromOne_atLeastOne _) (value_maxStep_nonneg hs)
  · exact fromOne_atLeastOne _

theorem fromOne_last_limit (t : PictureType) (q : δ) (u : PictureType) :
    x.FromOne ((h.limit s t q).2.last.get u) := by
  by_cases hu : u = t
  · rw [hu, History.last_limit_self]
    exact fromOne_limit hh hs t q
  · rw [History.last_limit_of_ne _ _ hu]
    exact hh u

end OrderedReading

/-- The average of values from 1 on, behind a start at 1, lies between the least and the greatest of them. -/
theorem LeakyAverage.value_addAll_between {K : Type} [Field K] [LinearOrder K] [IsStrictOrderedRing K]
    {x : OrderedReading δ K} {a : LeakyAverage δ} {keep : δ} {qs : List δ} (hkeep : 0 ≤ x.value keep)
    (hpos : 0 < x.value a.count) (hstart : x.value a.sum = x.value a.count) (hqs : ∀ q ∈ qs, x.FromOne q)
    (hnumber : Scalar.isNaN (a.addAll keep qs).value = false) :
    let values := qs.map x.value
    let mean := x.value (a.addAll keep qs).value
    (∀ v ∈ values, 1 ≤ v) ∧ 1 ≤ mean ∧
      ∃ lo ∈ 1 :: values, ∃ hi ∈ 1 :: values, (∀ v ∈ 1 :: values, lo ≤ v ∧ v ≤ hi) ∧ lo ≤ mean ∧ mean ≤ hi := by
  intro values mean
  have hsum : Scalar.isNaN (a.addAll keep qs).sum = false := by
    by_contra hnan
    rw [value, x.isNaN_of_isNaN_div (Bool.not_eq_false _ ▸ hnan)] at hnumber
    cases hnumber
  have hnumbers := (isNaN_addAll x hsum).2
  have hone : ∀ v ∈ values, 1 ≤ v := List.forall_mem_map.2 fun q hq => hqs q hq (hnumbers q hq)
  have hmean : mean = decayed (x.value keep) (1 * x.value a.count) values /
      decayedWeight (x.value keep) (x.value a.count) values.length := by
    simp only [mean, value, x.value_div, value_sum_addAll, value_count_addAll, hstart, one_mul, values,
      List.length_map]
  obtain ⟨lo, hlo, hi, hhi, hbounds⟩ := exists_least_greatest 1 values
  have hbetween := decayed_div_between hkeep hpos hbounds
  rw [← hmean] at hbetween
  have hle : 1 ≤ lo := (List.forall_mem_cons (p := fun v => 1 ≤ v)).2 ⟨le_rfl, hone⟩ lo hlo
  exact ⟨hone, hle.trans hbetween.1, lo, hlo, hi, hhi, hbounds, hbetween⟩

-- ---------------------------------------------------------------------------
-- Estimates
-- ---------------------------------------------------------------------------

namespace Session

/-- The rate factor of a frame of a single pass. -/
def factor (s : Session σ δ) (f : Frame) : δ :=
  s.state.wanted / s.state.granted * compensation s.policy.settings f (wantedBits δ s.policy.settings f)

/-- The limited quantizer of a frame of a single pass, and the history with it. There is none where the rate
    equation has no value. -/
def limited? (s : Session σ δ) (f : Frame) : Option (δ × History δ) :=
  (s.policy.grant (s.sumsWith f) (s.counted f) (s.factor f) f.picture).outcome.toOption.map fun g =>
    s.state.history.limit s.policy.settings.quantizer f.pictureType g.quantizer

/-- The average behind a frame with the limited quantizer `q`. -/
def averageWith (s : Session σ δ) (f : Frame) (q : δ) : LeakyAverage δ :=
  if s.policy.isAveraged f.pictureType then s.state.average.add (widen s.policy.settings.blur) q
  else s.state.average

/-- What a frame with the limited quantizer `q` is shaped from. -/
def unshaped (s : Session σ δ) (f : Frame) (q : δ) : δ :=
  if s.policy.isAveraged f.pictureType then (s.averageWith f q).value else q

variable {s : Session σ δ} {f : Frame}

omit [Scalar σ] [Precision σ δ] in
/-- What is learnt goes into the models only. -/
theorem learnt_fixed (s : Session σ δ) (f : Frame) :
    (s.learnt f).history = s.state.history ∧ (s.learnt f).buffer = s.state.buffer ∧
      (s.learnt f).average = s.state.average ∧ (s.learnt f).granted = s.state.granted ∧
      (s.learnt f).wanted = s.state.wanted := by
  unfold learnt
  split <;> exact ⟨rfl, rfl, rfl, rfl, rfl⟩

theorem grant_learnt (s : Session σ δ) (f : Frame) :
    (s.policy.grant ((s.learnt f).account (s.counted f)).sums (s.counted f)
      ((s.learnt f).wanted / (s.learnt f).granted *
        compensation s.policy.settings f (wantedBits δ s.policy.settings f)) f.picture :
        Attempt (Event σ δ) (Fault σ δ) _) =
      s.policy.grant (s.sumsWith f) (s.counted f) (s.factor f) f.picture := by
  obtain ⟨-, -, -, hgranted, hwanted⟩ := s.learnt_fixed f
  rw [s.account_learnt, hgranted, hwanted, factor]

/-- An estimate without a limited quantizer comes to no decision, and leaves history and average alone. -/
theorem assess_of_unlimited (hpass : s.isSecondPass = false) (h : s.limited? f = none) :
    (∃ e, (s.assess f).value.1 = .error e) ∧ (s.assess f).value.2.state.history = s.state.history ∧
      (s.assess f).value.2.state.average = s.state.average := by
  have hassess : s.assess f = s.estimateUnplanned f := if_neg (by simp [hpass])
  obtain ⟨e, hgrant⟩ : ∃ e, (s.policy.grant (s.sumsWith f) (s.counted f) (s.factor f) f.picture :
      Attempt (Event σ δ) (Fault σ δ) _).outcome = .error e := by
    rw [limited?, Option.map_eq_none_iff] at h
    cases hg : (s.policy.grant (s.sumsWith f) (s.counted f) (s.factor f) f.picture :
      Attempt (Event σ δ) (Fault σ δ) _).outcome with
    | error e => exact ⟨e, rfl⟩
    | ok g => simp [hg, Except.toOption] at h
  rw [← s.grant_learnt f] at hgrant
  have hvalue := Policy.propose_of_error hgrant
  have haccount : (s.learnt f).account (s.policy.forecast (s.learnt f) f) = _ := s.account_learnt f
  rw [haccount] at hvalue
  rw [hassess]
  simp only [estimateUnplanned, Logged.value_bind]
  rw [← learnt, hvalue]
  exact ⟨⟨e, rfl⟩, rfl, rfl⟩

/-- An estimate with a limited quantizer comes to a decision. It records the quantizer in the history, and in the
    average if its type is averaged. -/
theorem assess_of_limited (hpass : s.isSecondPass = false) {q : δ} {history : History δ}
    (h : s.limited? f = some (q, history)) :
    (∃ d, (s.assess f).value.1 = .ok d) ∧
      s.candidate? f =
        some (s.policy.settings.shape s.state.buffer (s.counted f) (s.unshaped f q) f.picture).value ∧
      (s.assess f).value.2.state.history = history ∧
      (s.assess f).value.2.state.average = s.averageWith f q := by
  have hassess : s.assess f = s.estimateUnplanned f := if_neg (by simp [hpass])
  obtain ⟨g, hg, hlimit⟩ := Option.map_eq_some_iff.1 h
  have hgrant : (s.policy.grant (s.sumsWith f) (s.counted f) (s.factor f) f.picture :
      Attempt (Event σ δ) (Fault σ δ) _).outcome = .ok g := by
    cases hx : (s.policy.grant (s.sumsWith f) (s.counted f) (s.factor f) f.picture :
      Attempt (Event σ δ) (Fault σ δ) _).outcome with
    | error e => simp [hx, Except.toOption] at hg
    | ok g' => simpa [hx, Except.toOption] using hg
  rw [← s.grant_learnt f] at hgrant
  obtain ⟨shortTerm, hvalue⟩ := Policy.propose_of_ok hgrant
  obtain ⟨hhistory, hbuffer, haverage, -, -⟩ := s.learnt_fixed f
  dsimp only at hvalue
  rw [hhistory, haverage, hbuffer, hlimit] at hvalue
  have hunshaped : (if s.policy.isAveraged f.pictureType then
      (s.state.average.add (widen s.policy.settings.blur) q).value else q) = s.unshaped f q := by
    unfold unshaped averageWith
    split <;> rfl
  dsimp only at hvalue
  rw [hunshaped] at hvalue
  have hcandidate : s.candidate? f =
      some (s.policy.settings.shape s.state.buffer (s.counted f) (s.unshaped f q) f.picture).value := by
    rw [candidate?, if_neg (by simp [hpass])]
    dsimp only
    rw [← learnt, hvalue]
    rfl
  rw [hassess]
  simp only [estimateUnplanned, Logged.value_bind]
  rw [← learnt, hvalue]
  exact ⟨⟨_, rfl⟩, hcandidate, rfl, rfl⟩

-- ---------------------------------------------------------------------------
-- Runs
-- ---------------------------------------------------------------------------

/-- The limited quantizer with which a step goes into the average: that of an estimate for real, of a picture whose
    type is averaged. -/
def entering? (s : Session σ δ) (step : Step) : Option δ :=
  step.realFrame?.bind fun f =>
    if s.policy.isAveraged f.pictureType then (s.limited? f).map (·.1) else none

/-- The quantizers that go into the average in the course of a run. -/
def averaged (s : Session σ δ) : List Step → List δ
  | []           => []
  | step :: rest => (s.entering? step).toList ++ (s.behind step).averaged rest

theorem entering?_eq_some {step : Step} {q : δ} (h : s.entering? step = some q) :
    ∃ f history, step = .estimate f false ∧ s.policy.isAveraged f.pictureType = true ∧
      s.limited? f = some (q, history) := by
  obtain ⟨f, hstep, h⟩ := Option.bind_eq_some_iff.1 h
  split at h
  · next htype =>
    obtain ⟨⟨q, history⟩, hlimited, rfl⟩ := Option.map_eq_some_iff.1 h
    exact ⟨f, history, Step.realFrame?_eq_some.1 hstep, htype, hlimited⟩
  · cases h

/-- What goes into the average is what a decision was made from. -/
theorem behind_entering (hpass : s.isSecondPass = false) {step : Step} {q : δ} (h : s.entering? step = some q) :
    ∃ f d, step = .estimate f false ∧ s.policy.isAveraged f.pictureType = true ∧
      (s.reply step).value = .decision (.ok d) ∧
      (s.behind step).state.average = s.state.average.add (widen s.policy.settings.blur) q ∧
      s.candidate? f = some (s.policy.settings.shape s.state.buffer (s.counted f)
        (s.behind step).state.average.value f.picture).value := by
  obtain ⟨f, history, rfl, htype, hlimited⟩ := entering?_eq_some h
  obtain ⟨⟨d, hd⟩, hcandidate, -, haverage⟩ := assess_of_limited hpass hlimited
  obtain ⟨hbehind, hreply⟩ := s.behind_real f
  rw [hbehind, hreply, hd, haverage]
  refine ⟨f, d, rfl, htype, rfl, ?_, ?_⟩
  · rw [averageWith, if_pos htype]
  · rw [hcandidate, unshaped, if_pos htype]

/-- Nothing else touches the average. -/
theorem behind_not_entering (hpass : s.isSecondPass = false) {step : Step} (h : s.entering? step = none) :
    (s.behind step).state.average = s.state.average ∧
      ∀ f, step = .estimate f false → s.policy.isAveraged f.pictureType = true →
        ∃ e, (s.reply step).value = .decision (.error e) := by
  cases hstep : step.realFrame? with
  | none =>
    obtain ⟨buffer, hbuffer⟩ := s.behind_unreal hstep
    refine ⟨by rw [hbuffer], ?_⟩
    rintro f rfl
    cases hstep
  | some f =>
    obtain rfl := Step.realFrame?_eq_some.1 hstep
    obtain ⟨hbehind, hreply⟩ := s.behind_real f
    rw [hbehind, hreply]
    cases hlimited : s.limited? f with
    | none =>
      obtain ⟨⟨e, he⟩, -, haverage⟩ := assess_of_unlimited hpass hlimited
      exact ⟨haverage, fun _ _ _ => ⟨e, by rw [he]⟩⟩
    | some x =>
      have htype : s.policy.isAveraged f.pictureType = false := by
        rw [entering?, hstep, Option.bind_some, hlimited] at h
        split at h
        · cases h
        · next htype => exact Bool.not_eq_true _ ▸ htype
      obtain ⟨-, -, -, haverage⟩ := assess_of_limited hpass hlimited
      refine ⟨by rw [haverage, averageWith, if_neg (by simp [htype])], ?_⟩
      rintro f' ⟨⟩ htype'
      rw [htype] at htype'
      cases htype'

theorem average_behind (hpass : s.isSecondPass = false) (step : Step) :
    (s.behind step).state.average =
      s.state.average.addAll (widen s.policy.settings.blur) (s.entering? step).toList := by
  cases h : s.entering? step with
  | none => exact (behind_not_entering hpass h).1
  | some q =>
    obtain ⟨f, d, -, -, -, haverage, -⟩ := behind_entering hpass h
    exact haverage

/-- The average behind a run. -/
theorem average_run (hpass : s.isSecondPass = false) (steps : List Step) :
    (s.run steps).2.state.average =
      s.state.average.addAll (widen s.policy.settings.blur) (s.averaged steps) := by
  induction steps generalizing s with
  | nil => rfl
  | cons step rest ih =>
    have hpolicy : (s.behind step).policy = s.policy := (s.perform_fixed step).1
    rw [run_cons, ih ((s.isSecondPass_behind step).trans hpass), hpolicy, average_behind hpass, averaged]
    exact (List.foldl_append ..).symm

section Bounds

variable {K : Type} [Field K] [LinearOrder K] [IsStrictOrderedRing K] {x : OrderedReading δ K}

/-- Whatever the rate equation says, a limited quantizer is from 1 on, and so are the quantizers of the history. -/
theorem fromOne_limited (hs : 0 ≤ s.policy.settings.quantizer.maxStep.toInt)
    (hh : ∀ t, x.FromOne (s.state.history.last.get t)) {q : δ} {history : History δ}
    (h : s.limited? f = some (q, history)) : x.FromOne q ∧ ∀ t, x.FromOne (history.last.get t) := by
  obtain ⟨g, -, heq⟩ := Option.map_eq_some_iff.1 h
  have hq := OrderedReading.fromOne_limit hh hs f.pictureType g.quantizer
  have hhistory := OrderedReading.fromOne_last_limit hh hs f.pictureType g.quantizer
  rw [heq] at hq hhistory
  exact ⟨hq, hhistory⟩

theorem fromOne_behind (hpass : s.isSecondPass = false) (hs : 0 ≤ s.policy.settings.quantizer.maxStep.toInt)
    (hh : ∀ t, x.FromOne (s.state.history.last.get t)) (step : Step) (t : PictureType) :
    x.FromOne ((s.behind step).state.history.last.get t) := by
  cases hstep : step.realFrame? with
  | none =>
    obtain ⟨buffer, hbuffer⟩ := s.behind_unreal hstep
    rw [hbuffer]
    exact hh t
  | some f =>
    obtain rfl := Step.realFrame?_eq_some.1 hstep
    rw [(s.behind_real f).1]
    cases hlimited : s.limited? f with
    | none =>
      rw [(assess_of_unlimited hpass hlimited).2.1]
      exact hh t
    | some a =>
      rw [(assess_of_limited hpass hlimited).2.2.1]
      exact (fromOne_limited hs hh hlimited).2 t

theorem fromOne_averaged (hpass : s.isSecondPass = false) (hs : 0 ≤ s.policy.settings.quantizer.maxStep.toInt)
    (hh : ∀ t, x.FromOne (s.state.history.last.get t)) (steps : List Step) :
    ∀ q ∈ s.averaged steps, x.FromOne q := by
  induction steps generalizing s with
  | nil => simp [averaged]
  | cons step rest ih =>
    have hpolicy : (s.behind step).policy = s.policy := (s.perform_fixed step).1
    intro q hmem
    rw [averaged, List.mem_append, Option.mem_toList] at hmem
    obtain hmem | hmem := hmem
    · obtain ⟨f, history, -, -, hlimited⟩ := entering?_eq_some hmem
      exact (fromOne_limited hs hh hlimited).1
    · exact ih ((s.isSecondPass_behind step).trans hpass) (by rwa [hpolicy]) (fromOne_behind hpass hs hh step) q hmem

end Bounds

-- ---------------------------------------------------------------------------
-- Set-up
-- ---------------------------------------------------------------------------

end Session

/-- The warm-up touches neither average nor history. -/
theorem Policy.start_average {p : Policy σ} {st : State δ}
    (h : (p.start : Attempt (Event σ δ) (Fault σ δ) _).outcome = .ok st) :
    st.average = ⟨0.001, 0.001⟩ ∧ st.history = .initial := by
  simp only [start] at h
  split at h
  · cases h
    exact ⟨rfl, rfl⟩
  · refine Attempt.fold_induction (fun st => st.average = ⟨0.001, 0.001⟩ ∧ st.history = .initial)
      (fun st i st' hst hi => ?_) ⟨rfl, rfl⟩ h
    obtain ⟨-, rfl⟩ := warmUpStep_ok hi
    exact hst

namespace Session

theorem create_average {settings : Settings σ} {s : Session σ δ} (h : (create settings none).outcome = .ok s) :
    s.state.average = ⟨0.001, 0.001⟩ ∧ s.state.history = .initial := by
  have hvalid := (create_ok h).1
  unfold create at h
  simp only [hvalid] at h
  obtain ⟨policy, -, h⟩ := Attempt.bind_ok.1 h
  obtain ⟨state, hstart, h⟩ := Attempt.bind_ok.1 h
  cases h
  exact Policy.start_average hstart

section Mean

variable {K : Type} [Field K] [LinearOrder K] [IsStrictOrderedRing K] {x : OrderedReading δ K}

theorem fromOne_initial (t : PictureType) : x.FromOne ((.initial : History δ).last.get t) := by
  intro _
  rw [History.initial, PerType.get_replicate, History.initialQuantizer, x.value_ofInt]
  norm_num [lambdaPerQP]

omit [IsStrictOrderedRing K] in
/-- The share that the average keeps is one of a valid single pass. -/
theorem keep_bounds (hwiden : x.Widens σ) {settings : Settings σ} (h : settings.violation? false = none) :
    0 ≤ x.value (widen settings.blur) ∧ x.value (widen settings.blur) ≤ 1 := by
  obtain ⟨hfinite, hlow, hhigh⟩ := settings.blur_bounds h
  obtain ⟨hzero, hone⟩ := hwiden settings.blur hfinite
  exact ⟨not_lt.1 fun hlt => hlow (hzero.1 hlt), not_lt.1 fun hlt => hhigh rfl (hone.1 hlt)⟩

/-- The short-term average of a single pass is a weighted mean of 1, which weighs a thousandth at the start, and
    of the limited quantizers that went into it. These are from 1 on, and so is the mean. It is what the picture of
    the next quantizer that goes into it is shaped from, and no other step touches it. -/
theorem average_weighted_mean (hwiden : x.Widens σ) {settings : Settings σ} {s : Session σ δ}
    (hcreate : (create settings none).outcome = .ok s) (steps : List Step) :
    let now := (s.run steps).2
    let average := now.state.average
    let qs := (s.averaged steps).map x.value
    let n := qs.length
    let keep := x.value (widen settings.blur)
    0 ≤ keep ∧ keep ≤ 1 ∧
    x.value average.sum = 0.001 * keep ^ n + ∑ k : Fin n, keep ^ (n - 1 - k) * qs.get k ∧
    x.value average.count = 0.001 * keep ^ n + ∑ k : Fin n, keep ^ (n - 1 - k) ∧
    0 < x.value average.count ∧
    (Scalar.isNaN average.value = false →
      (∀ q ∈ qs, 1 ≤ q) ∧ 1 ≤ x.value average.value ∧
      ∃ lo ∈ 1 :: qs, ∃ hi ∈ 1 :: qs, (∀ q ∈ 1 :: qs, lo ≤ q ∧ q ≤ hi) ∧
        lo ≤ x.value average.value ∧ x.value average.value ≤ hi) ∧
    ∀ step,
      (∀ q, now.entering? step = some q →
        ∃ f d, step = .estimate f false ∧ now.policy.isAveraged f.pictureType = true ∧
          (now.reply step).value = .decision (.ok d) ∧
          (now.behind step).state.average = average.add (widen settings.blur) q ∧
          now.candidate? f = some (settings.shape now.state.buffer (now.counted f)
            (now.behind step).state.average.value f.picture).value) ∧
      (now.entering? step = none →
        (now.behind step).state.average = average ∧
          ∀ f, step = .estimate f false → now.policy.isAveraged f.pictureType = true →
            ∃ e, (now.reply step).value = .decision (.error e)) := by
  obtain ⟨hvalid, hsettings⟩ := create_ok hcreate
  obtain ⟨hstart, hhistory⟩ := create_average hcreate
  have hpass : s.isSecondPass = false := (create_buffer hcreate).2
  obtain ⟨hpolicy, -⟩ := s.run_fixed steps
  have hpass' : (s.run steps).2.isSecondPass = false := isSecondPass_run hcreate steps
  have hstep : 0 ≤ s.policy.settings.quantizer.maxStep.toInt := hsettings ▸ settings.maxStep_nonneg hvalid
  intro now average qs n keep
  obtain ⟨hkeep, hkeep'⟩ := keep_bounds hwiden hvalid
  have hthousandth : x.value (0.001 : δ) = 0.001 := x.value_ofScientific ..
  have hpos : (0 : K) < 0.001 := by norm_num
  have haverage : average = (⟨0.001, 0.001⟩ : LeakyAverage δ).addAll (widen settings.blur) (s.averaged steps) := by
    rw [← hstart, ← hsettings]
    exact average_run hpass steps
  have hsum : x.value average.sum = decayed keep 0.001 qs := by
    rw [haverage, LeakyAverage.value_sum_addAll, hthousandth]
  have hcount : x.value average.count = decayedWeight keep 0.001 n := by
    rw [haverage, LeakyAverage.value_count_addAll, hthousandth, ← List.length_map (f := x.value)]
  have hfrom : ∀ q ∈ s.averaged steps, x.FromOne q :=
    fromOne_averaged hpass hstep (fun t => by rw [hhistory]; exact fromOne_initial t) steps
  refine ⟨hkeep, hkeep', ?_, ?_, ?_, fun hnumber => ?_, fun step => ⟨fun q hq => ?_, fun hnone => ?_⟩⟩
  · rw [hsum, decayed_eq, mul_comm]
  · rw [hcount, decayedWeight_eq, mul_comm]
  · rw [hcount]
    exact decayedWeight_pos hkeep hpos n
  · rw [haverage] at hnumber ⊢
    exact LeakyAverage.value_addAll_between hkeep (hpos.trans_eq hthousandth.symm) rfl hfrom hnumber
  · obtain ⟨f, d, hreal, htype, hreply, hadd, hcandidate⟩ := behind_entering hpass' hq
    rw [hpolicy, hsettings] at hadd hcandidate
    exact ⟨f, d, hreal, htype, hreply, hadd, hcandidate⟩
  · exact behind_not_entering hpass' hnone

end Mean

section Witness

open scoped Exact

theorem widens_withNaN : (WithNaN.orderedReading : OrderedReading (WithNaN ℚ) ℚ).Widens (WithNaN ℚ) := by
  intro a ha
  have hnumber : Scalar.isNaN a = false := Bool.not_eq_true' _ ▸ ha
  have hzero : WithNaN.orderedReading.value (0.0 : WithNaN ℚ) = (0 : ℚ) := by decide +kernel
  rw [gt_iff_lt, WithNaN.orderedReading.lt_iff, WithNaN.orderedReading.lt_iff, hnumber, hzero,
    OrderedReading.value_one]
  exact ⟨⟨fun h => ⟨rfl, rfl, h⟩, fun h => h.2.2⟩, ⟨fun h => ⟨rfl, rfl, h⟩, fun h => h.2.2⟩⟩

/-- Two P pictures, around a dry run, a coded picture and an I picture without a decision, and then an I picture
    again. -/
theorem average_weighted_mean_two_pictures :
    let settings : Settings (WithNaN ℚ) := { Settings.standard with equation := some "isP/isP" }
    let steps : List Step :=
      [.estimate { mcVarSum := 60000 } false, .estimate { picture := 1 } true, .drain 8000,
       .estimate { picture := 1, pictureType := .intra, varSum := 150000 } false,
       .estimate { picture := 2, mcVarSum := 60000 } false]
    let next : Step := .estimate { picture := 3, pictureType := .intra } false
    let value : WithNaN ℚ → ℚ := WithNaN.orderedReading.value
    ∃ s : Session (WithNaN ℚ) (WithNaN ℚ), (create settings none).outcome = .ok s ∧
      let average := (s.run steps).2.state.average
      ∃ q₁ q₂ : ℚ, 1 ≤ q₁ ∧ 1 ≤ q₂ ∧ value average.sum = 0.00025 + q₁ / 2 + q₂ ∧
        value average.count = 0.00025 + 1 / 2 + 1 ∧ 1 ≤ value average.value ∧
        ((s.run steps).2.behind next).state.average = average := by
  intro settings steps next value
  have h : (create settings none : Attempt (Event (WithNaN ℚ) (WithNaN ℚ)) _ _).outcome.toOption.any (fun s =>
      (s.averaged steps).length = 2 ∧ Scalar.isNaN (s.run steps).2.state.average.value = false ∧
      ((s.run steps).2.entering? next).isNone) = true := by
    decide +kernel
  obtain ⟨s, hs, h⟩ := Attempt.exists_ok_of_any h
  obtain ⟨hlength, hnumber, hnone⟩ := of_decide_eq_true h
  obtain ⟨q₁, q₂, hqs⟩ := List.length_eq_two.1 hlength
  obtain ⟨-, -, hsum, hcount, -, hmean, hsteps⟩ := average_weighted_mean widens_withNaN hs steps
  obtain ⟨hone, hvalue, -⟩ := hmean hnumber
  have hkeep : WithNaN.orderedReading.value (widen settings.blur : WithNaN ℚ) = 1 / 2 := by decide +kernel
  have hunchanged := ((hsteps next).2 (Option.isNone_iff_eq_none.1 hnone)).1
  rw [hqs, hkeep] at hsum
  rw [hqs, hkeep] at hcount
  rw [hqs] at hone
  refine ⟨s, hs, value q₁, value q₂, hone _ (by simp [value]), hone _ (by simp [value]), ?_, ?_, hvalue, hunchanged⟩
  · refine hsum.trans ((congrArg _ (Fin.sum_univ_two _)).trans ?_)
    norm_num [value]
    ring
  · refine hcount.trans ((congrArg _ (Fin.sum_univ_two _)).trans ?_)
    norm_num

end Witness

end Session

end RateControl
