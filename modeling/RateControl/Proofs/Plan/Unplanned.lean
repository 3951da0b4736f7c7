-- SUMMARY: What was planned for a table before is not read when it is planned: equations, trials and plans are those of the unplanned table.
import Mathlib.Data.List.Basic
import RateControl.Plan
import RateControl.Proofs.Attempt
import RateControl.Proofs.Statistics.Writer

/-! # Plans from anew

A record has room for its plan next to what was recorded. No stage of a plan reads this room: neither the
rate equation nor the sums, nor a trial, which writes every record's plan from anew. So a table is planned in
the same way, events included, whatever was planned for it before. -/

namespace RateControl

open Line (unplanned)

variable {σ δ : Type} [Scalar σ] [Scalar δ] [Precision σ δ]

-- ---------------------------------------------------------------------------
-- Equations
-- ---------------------------------------------------------------------------

omit [Scalar σ] in
theorem Expr.eval_unplanned (e : Expr) (table : Symbol → δ) (r : Record σ) :
    e.eval table (unplanned r) = e.eval table r := by
  induction e with
  | number d => rfl
  | symbol c => rfl
  | neg a ih => simp only [eval, ih]
  | binary op a b iha ihb => simp only [eval, iha, ihb]
  | unaryCall f a ih =>
    simp only [eval, ih]
    cases f <;> rfl
  | binaryCall f a b iha ihb => simp only [eval, iha, ihb]
  | andThen a b iha ihb => simp only [eval, iha, ihb]

-- ---------------------------------------------------------------------------
-- Trials
-- ---------------------------------------------------------------------------

namespace Policy

theorem grant_unplanned (p : Policy σ) (sums : PerType (Sums δ)) (r : Record σ) (factor : δ) (i : Nat) :
    p.grant sums (unplanned r) factor i = p.grant sums r factor i := by
  simp only [grant, Equation.eval, Expr.eval_unplanned]
  rfl

theorem grantAll_unplanned (p : Policy σ) (factor : δ) (st : State δ) (table : List (Record σ)) :
    p.grantAll factor st (table.map unplanned) = p.grantAll factor st table := by
  simp only [grantAll, Attempt.fold, List.zipIdx_map, List.foldl_map, Prod.map_fst, Prod.map_snd, id_eq,
    grant_unplanned]
  rfl

theorem layOutAll_unplanned (p : Policy σ) (b : Buffer δ) (table : List (Record σ)) (curve : List δ) :
    p.layOutAll b (table.map unplanned) curve = p.layOutAll b table curve := by
  simp only [layOutAll, Logged.fold, List.zip_map_left, List.zipIdx_map, List.foldl_map]
  rfl

theorem trial_unplanned (p : Policy σ) (factor : δ) (st : State δ) (table : List (Record σ)) :
    p.trial factor st (table.map unplanned) = p.trial factor st table := by
  have htypes : (table.map unplanned).map (·.pictureType) = table.map (·.pictureType) := by
    rw [List.map_map]
    rfl
  simp only [trial, htypes, grantAll_unplanned, layOutAll_unplanned]

end Policy

-- ---------------------------------------------------------------------------
-- Plans
-- ---------------------------------------------------------------------------

/-- A search whose trials do not tell two starting points apart ends alike from both. -/
theorem Search.run_congr {ε φ β : Type} {trial : Nat → β → Attempt ε φ (Bool × β)} {b b' : β}
    (h : ∀ n, trial n b = trial n b') : run trial b = run trial b' := by
  -- The starting point goes into the first trial only.
  obtain ⟨step, steps', hsteps⟩ : ∃ step steps', steps = step :: steps' := ⟨_, _, rfl⟩
  have hfirst : advance trial ⟨0, 0, b⟩ step = advance trial ⟨0, 0, b'⟩ step := by
    simp only [advance, h]
  simp only [run, Attempt.fold, hsteps, List.foldl_cons, pure_bind, hfirst]

namespace Policy

theorem plan_unplanned (p : Policy σ) (st : State δ) (table : List (Record σ)) :
    p.plan st (table.map unplanned) = p.plan st table := by
  have haccount : (table.map unplanned).foldl State.account st = table.foldl State.account st := by
    rw [List.foldl_map]
    rfl
  have htextures : (textureTotals (table.map unplanned) : PerType δ) = textureTotals table := by
    rw [textureTotals, List.foldl_map]
    rfl
  have hfixed : fixedTotal (table.map unplanned) = fixedTotal table := by
    rw [fixedTotal, List.filter_map, List.foldl_map]
    rfl
  have hsearch (available : Nat) (st : State δ) :
      Search.run (p.searchTrial available) (⟨table.map unplanned, 0.0⟩, st) =
        Search.run (p.searchTrial available) (⟨table, 0.0⟩, st) :=
    Search.run_congr fun n => by simp only [searchTrial, trial_unplanned]
  simp only [plan, haccount, htextures, hfixed, hsearch, List.length_map]

end Policy
end RateControl
