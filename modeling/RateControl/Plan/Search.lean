-- SUMMARY: Search for the greatest rate factor that does not overshoot, by halving steps.
import RateControl.Logged

/-! # Search

Rate factors are whole numbers of units of `2 ^ -23`. The search starts at 0, adds steps that halve from
`2 ^ 39` units to 1, and takes a step back where it overshoots. So it makes 40 trials, and what it ends
with is put together from the binary digits of the steps that stayed. -/

namespace RateControl.Search

/-- The number of trials. -/
def trialCount : Nat := 40

/-- The steps in units, from the greatest to the least. -/
def steps : List Nat := (List.range trialCount).reverse.map (Nat.pow 2)

/-- The search between two trials. -/
structure Progress (β : Type) where
  /-- The rate factor so far, in units. -/
  factor : Nat
  /-- The number of trials that overshot. -/
  overshoots : Nat
  /-- What the last trial left behind. -/
  carried : β

variable {ε φ β : Type}

/-- A trial one step further. The trial says whether it overshoots. -/
def advance (trial : Nat → β → Attempt ε φ (Bool × β)) (s : Progress β) (step : Nat) :
    Attempt ε φ (Progress β) := do
  let (overshoots, carried) ← trial (s.factor + step) s.carried
  return if overshoots then ⟨s.factor, s.overshoots + 1, carried⟩
    else ⟨s.factor + step, s.overshoots, carried⟩

/-- The search over all steps. -/
def run (trial : Nat → β → Attempt ε φ (Bool × β)) (b : β) : Attempt ε φ (Progress β) :=
  .fold (advance trial) ⟨0, 0, b⟩ steps

end RateControl.Search
