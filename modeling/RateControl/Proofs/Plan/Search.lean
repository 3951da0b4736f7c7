-- SUMMARY: The answers that the trials of a search give, and what the search makes of them.
import RateControl.Plan.Search
import RateControl.Proofs.Attempt

/-! # Searches

A search that ends has made all of its trials. It keeps what the last of them left behind, whether that one
overshot or not, and the number of those that overshot. -/

namespace RateControl.Search

variable {ε φ β : Type}

/-- The search behind a trial that was one step further. -/
def Progress.after (s : Progress β) (step : Nat) (overshoots : Bool) (carried : β) : Progress β :=
  if overshoots then ⟨s.factor, s.overshoots + 1, carried⟩
  else ⟨s.factor + step, s.overshoots, carried⟩

@[simp] theorem Progress.carried_after (s : Progress β) (step : Nat) (o : Bool) (c : β) :
    (s.after step o c).carried = c := by
  cases o <;> rfl

@[simp] theorem Progress.overshoots_after (s : Progress β) (step : Nat) (o : Bool) (c : β) :
    (s.after step o c).overshoots = s.overshoots + o.toNat := by
  cases o <;> rfl

/-- The answers of the trials, up to the first fault. -/
def answers (trial : Nat → β → Attempt ε φ (Bool × β)) (s : Progress β) : List Nat → List (Bool × β)
  | []           => []
  | step :: rest =>
    match (trial (s.factor + step) s.carried).outcome with
    | .ok (o, c) => (o, c) :: answers trial (s.after step o c) rest
    | .error _   => []

/-- The trials that are made, up to the first fault: the factor of each, and what it starts from. -/
def visits (trial : Nat → β → Attempt ε φ (Bool × β)) (s : Progress β) : List Nat → List (Nat × β)
  | []           => []
  | step :: rest =>
    (s.factor + step, s.carried) ::
      match (trial (s.factor + step) s.carried).outcome with
      | .ok (o, c) => visits trial (s.after step o c) rest
      | .error _   => []

variable {trial : Nat → β → Attempt ε φ (Bool × β)}

theorem answers_eq_visits (s : Progress β) (l : List Nat) :
    answers trial s l = (visits trial s l).filterMap fun v => (trial v.1 v.2).outcome.toOption := by
  induction l generalizing s with
  | nil => rfl
  | cons step rest ih =>
    unfold answers visits
    cases h : (trial (s.factor + step) s.carried).outcome with
    | error e => simp [h, Except.toOption]
    | ok a => simp [h, ih, Except.toOption]

/-- No step is tried twice. -/
theorem length_visits_le (s : Progress β) (l : List Nat) : (visits trial s l).length ≤ l.length := by
  induction l generalizing s with
  | nil => exact Nat.le_refl _
  | cons step rest ih =>
    rw [visits, List.length_cons, List.length_cons]
    cases (trial (s.factor + step) s.carried).outcome with
    | error e => simp
    | ok a => exact Nat.succ_le_succ (ih _)

/-- What every trial keeps up holds wherever a trial starts. -/
theorem forall_visits (Inv : β → Prop) (htrial : ∀ n b o c, Inv b → (trial n b).outcome = .ok (o, c) → Inv c)
    {s : Progress β} (hs : Inv s.carried) (l : List Nat) : ∀ v ∈ visits trial s l, Inv v.2 := by
  induction l generalizing s with
  | nil => simp [visits]
  | cons step rest ih =>
    rw [visits, List.forall_mem_cons]
    refine ⟨hs, ?_⟩
    cases h : (trial (s.factor + step) s.carried).outcome with
    | error e => simp
    | ok a => exact ih (by simpa using htrial _ _ a.1 a.2 hs h)

/-- What the first trial brings about and every other one keeps up holds wherever another one starts. -/
theorem forall_visits_tail (Inv : β → Prop) {s : Progress β}
    (hfirst : ∀ n o c, (trial n s.carried).outcome = .ok (o, c) → Inv c)
    (htrial : ∀ n b o c, Inv b → (trial n b).outcome = .ok (o, c) → Inv c) (l : List Nat) :
    ∀ v ∈ (visits trial s l).tail, Inv v.2 := by
  cases l with
  | nil => simp [visits]
  | cons step rest =>
    rw [visits, List.tail_cons]
    cases h : (trial (s.factor + step) s.carried).outcome with
    | error e => simp
    | ok a => exact forall_visits Inv htrial (by simpa using hfirst _ a.1 a.2 h) rest

theorem advance_ok {s s' : Progress β} {step : Nat} (h : (advance trial s step).outcome = .ok s') :
    ∃ o c, (trial (s.factor + step) s.carried).outcome = .ok (o, c) ∧ s' = s.after step o c := by
  obtain ⟨⟨o, c⟩, htrial, h⟩ := Attempt.bind_ok.1 h
  cases h
  exact ⟨o, c, htrial, rfl⟩

/-- What a search makes of its answers: it counts those that overshot, and carries the last on. -/
theorem foldlM_advance {s s' : Progress β} {l : List Nat}
    (h : l.foldlM (fun s step => (advance trial s step).outcome) s = .ok s') :
    (answers trial s l).length = l.length ∧
    s'.overshoots = s.overshoots + (answers trial s l).countP (·.1) ∧
    s'.carried = ((answers trial s l).getLast?.map (·.2)).getD s.carried := by
  induction l generalizing s with
  | nil =>
    cases h
    simp [answers]
  | cons step rest ih =>
    rw [List.foldlM_cons] at h
    cases hadvance : (advance trial s step).outcome with
    | error e =>
      rw [hadvance] at h
      cases h
    | ok next =>
      rw [hadvance] at h
      obtain ⟨o, c, htrial, rfl⟩ := advance_ok hadvance
      obtain ⟨hlength, hcount, hlast⟩ := ih h
      simp only [answers, htrial]
      refine ⟨by simp [hlength], ?_, ?_⟩
      · rw [hcount, List.countP_cons, Progress.overshoots_after]
        cases o with
        | true =>
          simp only [Bool.toNat_true, if_true]
          omega
        | false => simp
      · rw [hlast, List.getLast?_cons]
        cases (answers trial (s.after step o c) rest).getLast? <;> simp

/-- A search that ends keeps the last of its answers. -/
theorem run_ok {b : β} {s : Progress β} (h : (run trial b).outcome = .ok s) :
    (answers trial ⟨0, 0, b⟩ steps).length = trialCount ∧
    s.overshoots = (answers trial ⟨0, 0, b⟩ steps).countP (·.1) ∧
    ∃ o, (answers trial ⟨0, 0, b⟩ steps).getLast? = some (o, s.carried) := by
  rw [run, Attempt.outcome_fold] at h
  obtain ⟨hlength, hcount, hlast⟩ := foldlM_advance h
  refine ⟨hlength, by rwa [Nat.zero_add] at hcount, ?_⟩
  cases hend : (answers trial ⟨0, 0, b⟩ steps).getLast? with
  | none =>
    rw [List.getLast?_eq_none_iff.1 hend] at hlength
    cases hlength
  | some last =>
    rw [hend] at hlast
    exact ⟨last.1, by rw [hlast]; rfl⟩

/-- What every trial keeps up holds of every answer. -/
theorem forall_answers (Inv : β → Prop) (Q : Bool → β → Prop)
    (htrial : ∀ n b o c, Inv b → (trial n b).outcome = .ok (o, c) → Inv c ∧ Q o c)
    {s : Progress β} (hs : Inv s.carried) (l : List Nat) :
    ∀ a ∈ answers trial s l, Q a.1 a.2 := by
  induction l generalizing s with
  | nil => simp [answers]
  | cons step rest ih =>
    unfold answers
    cases h : (trial (s.factor + step) s.carried).outcome with
    | error e => simp
    | ok a =>
      obtain ⟨o, c⟩ := a
      obtain ⟨hc, hQ⟩ := htrial _ _ o c hs h
      rintro a (_ | ⟨_, ha⟩)
      · exact hQ
      · exact ih (by rwa [Progress.carried_after]) a ha

/-- A search in which no trial stops or overshoots ends, with no overshoot counted. -/
theorem run_of_never (Inv : β → Prop)
    (htrial : ∀ n b, Inv b → ∃ c, (trial n b).outcome = .ok (false, c) ∧ Inv c) {b : β} (hb : Inv b) :
    ∃ s, (run trial b).outcome = .ok s ∧ s.overshoots = 0 := by
  rw [run, Attempt.outcome_fold]
  suffices ∀ (l : List Nat) (s : Progress β), Inv s.carried → s.overshoots = 0 →
      ∃ s', l.foldlM (fun s step => (advance trial s step).outcome) s = .ok s' ∧ s'.overshoots = 0 from
    this steps _ hb rfl
  intro l
  induction l with
  | nil => exact fun s _ hs => ⟨s, rfl, hs⟩
  | cons step rest ih =>
    intro s hcarried hs
    obtain ⟨c, hc, hInv⟩ := htrial (s.factor + step) s.carried hcarried
    have hadvance : (advance trial s step).outcome = .ok ⟨s.factor + step, s.overshoots, c⟩ := by
      rw [advance, Attempt.outcome_bind, hc]
      rfl
    rw [List.foldlM_cons, hadvance]
    exact ih _ hInv hs

end RateControl.Search
