-- SUMMARY: Dry runs and queries leave no trace: a run without them answers all other steps alike, and ends in the same session.
import RateControl.Proofs.Session.Run

/-! # Dry runs

A dry run is an estimate after which the state is put back. Since an estimate changes nothing but the state,
nothing is left of a dry run, whether it came to a decision or to a fault. -/

namespace RateControl

/-- Whether the step is a dry run or a query. -/
def Step.isTrial : Step → Bool
  | .estimate _ dryRun => dryRun
  | step               => step.isQuery

namespace Session

variable {σ δ : Type} [Scalar σ] [Scalar δ] [Precision σ δ]

theorem behind_trial (s : Session σ δ) {step : Step} (h : step.isTrial = true) : s.behind step = s := by
  cases step with
  | estimate f dryRun =>
    obtain rfl : dryRun = true := h
    simp only [behind, perform, Logged.value_bind, estimate_value]
    rfl
  | drain bits => cases h
  | _ => rfl

/-- A run without its trials answers all other steps as before, events included, and ends in the same
    session. A dry run answers what an estimate for real would have answered in its place. -/
theorem run_without_trials (s : Session σ δ) :
    (∀ steps : List Step,
      s.run (steps.filter (!·.isTrial)) =
        (((steps.zip (s.run steps).1).filter (!·.1.isTrial)).map (·.2), (s.run steps).2)) ∧
    ∀ (before : List Step) (f : Frame) (after : List Step), ∃ answer,
      (s.run (before ++ .estimate f true :: after)).1[before.length]? = some answer ∧
      (s.run (before ++ .estimate f false :: after)).1[before.length]? = some answer := by
  constructor
  · intro steps
    induction steps generalizing s with
    | nil => rfl
    | cons step rest ih =>
      rw [run_cons, List.zip_cons_cons]
      cases htrial : step.isTrial with
      | true =>
        rw [List.filter_cons_of_neg (by simp [htrial]), List.filter_cons_of_neg (by simp [htrial]),
          s.behind_trial htrial, ih]
      | false =>
        rw [List.filter_cons_of_pos (by simp [htrial]), List.filter_cons_of_pos (by simp [htrial]),
          run_cons, ih, List.map_cons]
  · intro before f after
    have hanswer (dryRun : Bool) : (s.run (before ++ .estimate f dryRun :: after)).1[before.length]? =
        some ((s.run before).2.reply (.estimate f dryRun)) := by
      rw [run_append, List.getElem?_append_right (Nat.le_of_eq (s.length_run before)), length_run, Nat.sub_self]
      rfl
    exact ⟨_, hanswer true, by rw [hanswer, reply_dryRun]⟩

end Session
end RateControl
