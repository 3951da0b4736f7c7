-- SUMMARY: What an estimate of a single pass does to its state, for frames with a decision and for frames without one.
import RateControl.Proofs.Grant
import RateControl.Proofs.Session.Run

/-! # Estimates of a single pass

An estimate of a single pass first learns the size of the picture before and counts the picture at hand. Then the
rate equation has a value for the picture or it has none, and nothing else decides whether there is a decision. -/

namespace RateControl

variable {σ δ : Type} [Scalar σ] [Scalar δ] [Precision σ δ]

namespace Policy

section Proposals

variable {p : Policy σ} {st : State δ} {f : Frame} {compensation : δ}

/-- A proposal without a grant has only counted its picture. -/
theorem propose_of_error {e : Fault σ δ}
    (h : (p.grant (st.account (p.forecast st f)).sums (p.forecast st f) (st.wanted / st.granted * compensation)
      f.picture : Attempt (Event σ δ) (Fault σ δ) _).outcome = .error e) :
    (p.propose st f compensation).value = (.error e, st.account (p.forecast st f)) := by
  have hvalue : (p.grant (st.account (p.forecast st f)).sums (p.forecast st f)
      ((st.account (p.forecast st f)).wanted / (st.account (p.forecast st f)).granted * compensation)
      f.picture : Attempt (Event σ δ) (Fault σ δ) _).run.value = .error e := h
  simp only [propose, Logged.value_bind]
  rw [hvalue]
  rfl

/-- A proposal with a grant limits the granted quantizer, averages it if its type is averaged, and shapes what it
    has then. -/
theorem propose_of_ok {g : Grant δ}
    (h : (p.grant (st.account (p.forecast st f)).sums (p.forecast st f) (st.wanted / st.granted * compensation)
      f.picture : Attempt (Event σ δ) (Fault σ δ) _).outcome = .ok g) :
    let limited := st.history.limit p.settings.quantizer f.pictureType g.quantizer
    let average := st.average.add (widen p.settings.blur) limited.1
    let q := if p.isAveraged f.pictureType then average.value else limited.1
    ∃ shortTerm, (p.propose st f compensation).value =
      (.ok ⟨(p.settings.shape st.buffer (p.forecast st f) q f.picture).value, shortTerm⟩,
        { st.account (p.forecast st f) with
          history := limited.2
          average := if p.isAveraged f.pictureType then average else st.average
          granted := st.granted + g.value
          wanted := st.wanted + p.settings.bitsPerFrame }) := by
  have hvalue : (p.grant (st.account (p.forecast st f)).sums (p.forecast st f)
      ((st.account (p.forecast st f)).wanted / (st.account (p.forecast st f)).granted * compensation)
      f.picture : Attempt (Event σ δ) (Fault σ δ) _).run.value = .ok g := h
  intro limited average q
  simp only [propose, Logged.value_bind]
  rw [hvalue]
  dsimp only [q]
  split
  · exact ⟨_, rfl⟩
  · exact ⟨_, rfl⟩

end Proposals

/-- A proposal counts its picture. It goes on to histories, averages and sums of grants just if the equation has
    a value for the record, under sums that the record is a part of. -/
theorem propose_cases (p : Policy σ) (st : State δ) (f : Frame) (compensation : δ) :
    let r := p.forecast st f
    let counted := st.account r
    let value := p.equationValue counted.sums r
    Scalar.isNaN value = true ∧
      (p.propose st f compensation).value = (.error (.equationNaN p.equation.source), counted) ∨
    Scalar.isNaN value = false ∧ ∃ c history average, (p.propose st f compensation).value =
      (.ok c, { counted with
        history, average
        granted := counted.granted + value
        wanted := counted.wanted + p.settings.bitsPerFrame }) := by
  intro r counted value
  cases hvalue : Scalar.isNaN value with
  | true => exact .inl ⟨rfl, propose_of_error (outcome_grant_of_isNaN hvalue _ _)⟩
  | false =>
    obtain ⟨_, hpropose⟩ := propose_of_ok (outcome_grant_of_value hvalue _ _)
    exact .inr ⟨rfl, _, _, _, hpropose⟩

theorem pictureType_forecast (p : Policy σ) (st : State δ) (f : Frame) :
    (p.forecast st f).pictureType = f.pictureType := by
  simp only [forecast, withSize]
  split <;> rfl

end Policy

namespace Session

/-- The state in which a frame of a single pass is judged. From the fourth picture on it knows the size of the
    picture before. -/
def learnt (s : Session σ δ) (f : Frame) : State δ :=
  if 2 < f.picture then s.state.learn f.lastType f.lastBits.toInt else s.state

/-- The record that a frame of a single pass is counted with. -/
def counted (s : Session σ δ) (f : Frame) : Record σ := s.policy.forecast (s.learnt f) f

/-- The sums in which a frame is counted. -/
def sumsWith (s : Session σ δ) (f : Frame) : PerType (Sums δ) :=
  s.state.sums.modify f.pictureType (·.add (s.counted f))

/-- The value of the rate equation for a frame of a single pass. -/
def worth (s : Session σ δ) (f : Frame) : δ := s.policy.equationValue (s.sumsWith f) (s.counted f)

/-- A frame that is judged and counted changes models and sums only. -/
theorem account_learnt (s : Session σ δ) (f : Frame) :
    (s.learnt f).account (s.counted f) =
      { s.state with models := (s.learnt f).models, sums := s.sumsWith f } := by
  have htype : (s.counted f).pictureType = f.pictureType := Policy.pictureType_forecast ..
  rw [State.account, htype, sumsWith]
  unfold learnt
  split <;> rfl

omit [Precision σ δ] [Scalar σ] in
/-- What is learnt changes the model of the last picture's type only. -/
theorem models_learnt (s : Session σ δ) (f : Frame) {t : PictureType} (h : t = f.lastType → f.picture ≤ 2) :
    (s.learnt f).models.get t = s.state.models.get t := by
  unfold learnt
  split
  · next hpicture => exact PerType.get_set_of_ne _ _ fun ht => absurd (h ht) (by omega)
  · rfl

/-- An estimate of a single pass without a decision only changes models and sums. One with a decision changes them
    alike, and all else but the buffer. -/
theorem estimateUnplanned_cases (s : Session σ δ) (f : Frame) :
    let counted : State δ := { s.state with models := (s.learnt f).models, sums := s.sumsWith f }
    Scalar.isNaN (s.worth f) = true ∧ (s.estimateUnplanned f).value =
      (.error (.equationNaN s.policy.equation.source), { s with state := counted }) ∨
    Scalar.isNaN (s.worth f) = false ∧ ∃ d history average last, (s.estimateUnplanned f).value =
      (.ok d, { s with state := { counted with
        history, average, last
        granted := s.state.granted + s.worth f
        wanted := s.state.wanted + s.policy.settings.bitsPerFrame } }) := by
  intro counted
  have hcases := s.policy.propose_cases (s.learnt f) f
    (compensation s.policy.settings f (wantedBits δ s.policy.settings f))
  have hcounted : (s.learnt f).account (s.policy.forecast (s.learnt f) f) = counted := s.account_learnt f
  dsimp only at hcases
  rw [hcounted] at hcases
  obtain ⟨hnan, hvalue⟩ | ⟨hnan, c, history, average, hvalue⟩ := hcases
  · refine .inl ⟨hnan, ?_⟩
    simp only [estimateUnplanned, Logged.value_bind]
    rw [← learnt, hvalue]
    rfl
  · refine .inr ⟨hnan, ?_⟩
    simp only [estimateUnplanned, Logged.value_bind]
    rw [← learnt, hvalue]
    exact ⟨_, _, _, _, rfl⟩

end Session
end RateControl
