-- SUMMARY: The rate factors that a search tries, and that it ends with the greatest one that does not overshoot.
import RateControl.Plan
import RateControl.Proofs.Binary.Representable
import RateControl.Proofs.Exact
import RateControl.Proofs.Plan.Search

/-! # Rate factors

A search keeps a rate factor that did not overshoot and, above it, one that did; both ends of the range are
open. Every trial lies half-way between the two and takes the place of one of them, so at the end they are
neighbours. If greater factors only overshoot more, then everything up to the one does not overshoot, and
everything from the other on does. -/

namespace RateControl

namespace Search

variable {ε φ β : Type} {trial : Nat → β → Attempt ε φ (Bool × β)}

-- ---------------------------------------------------------------------------
-- Trials
-- ---------------------------------------------------------------------------

/-- The trials of a search up to the first fault: the rate factor of each in units, and whether it
    overshot. -/
def tried (trial : Nat → β → Attempt ε φ (Bool × β)) (s : Progress β) : List Nat → List (Nat × Bool)
  | []           => []
  | step :: rest =>
    match (trial (s.factor + step) s.carried).outcome with
    | .ok (o, c) => (s.factor + step, o) :: tried trial (s.after step o c) rest
    | .error _   => []

/-- The last `n` steps. -/
def lastSteps (n : Nat) : List Nat := (List.range n).reverse.map (Nat.pow 2)

theorem lastSteps_succ (n : Nat) : lastSteps (n + 1) = 2 ^ n :: lastSteps n := by
  rw [lastSteps, List.range_succ, List.reverse_append]
  rfl

-- ---------------------------------------------------------------------------
-- Brackets
-- ---------------------------------------------------------------------------

/-- Trials between `low` and `high` that end with `factor`. It did not overshoot, unless it is where the
    trials began, and the next factor did, unless it is out of range. -/
structure Brackets (trials : List (Nat × Bool)) (low high factor : Nat) : Prop where
  inRange : ∀ t ∈ trials, low < t.1 ∧ t.1 < high
  below : factor = low ∨ (factor, false) ∈ trials
  above : factor + 1 = high ∨ (factor + 1, true) ∈ trials

namespace Brackets

variable {trials : List (Nat × Bool)} {low middle high factor : Nat}

theorem nil (low : Nat) : Brackets [] low (low + 1) low where
  inRange := by simp
  below := .inl rfl
  above := .inl rfl

/-- A trial that overshoots is the end of the range for the trials after it. -/
theorem cons_overshot (h : Brackets trials low middle factor) (hlow : low < middle)
    (hhigh : middle < high) : Brackets ((middle, true) :: trials) low high factor where
  inRange := by
    rintro t (_ | ⟨_, ht⟩)
    · exact ⟨hlow, hhigh⟩
    · exact ⟨(h.inRange t ht).1, (h.inRange t ht).2.trans hhigh⟩
  below := h.below.imp_right (List.mem_cons_of_mem _)
  above := by
    right
    obtain heq | hmem := h.above
    · rw [heq]
      exact List.mem_cons_self
    · exact List.mem_cons_of_mem _ hmem

/-- A trial that does not overshoot is where the trials after it begin. -/
theorem cons_fit (h : Brackets trials middle high factor) (hlow : low < middle)
    (hhigh : middle < high) : Brackets ((middle, false) :: trials) low high factor where
  inRange := by
    rintro t (_ | ⟨_, ht⟩)
    · exact ⟨hlow, hhigh⟩
    · exact ⟨hlow.trans (h.inRange t ht).1, (h.inRange t ht).2⟩
  below := by
    right
    obtain rfl | hmem := h.below
    · exact List.mem_cons_self
    · exact List.mem_cons_of_mem _ hmem
  above := h.above.imp_right (List.mem_cons_of_mem _)

section Verdicts

-- A verdict on every factor, which agrees with the trials and is not lifted by greater factors.
variable {verdict : Nat → Bool} (h : Brackets trials 0 high factor)
  (hagree : ∀ t ∈ trials, t.2 = verdict t.1)
  (hmono : ∀ m n, 0 < m → m ≤ n → n < high → verdict m = true → verdict n = true)
include h hagree hmono

/-- The factors that do not overshoot are those up to the last one. -/
theorem fits_iff {n : Nat} (hpos : 0 < n) (hlt : n < high) : verdict n = false ↔ n ≤ factor := by
  constructor
  · intro hfit
    by_contra hgreater
    obtain heq | hmem := h.above
    · omega
    · have hnext := hagree _ hmem
      rw [hmono (factor + 1) n (by omega) (by omega) hlt hnext.symm] at hfit
      cases hfit
  · intro hle
    obtain rfl | hmem := h.below
    · omega
    · have hfactor := hagree _ hmem
      by_contra hovershot
      rw [Bool.not_eq_false] at hovershot
      rw [hmono n factor hpos hle (h.inRange _ hmem).2 hovershot] at hfactor
      cases hfactor

/-- All trials overshoot just if the least factor does. -/
theorem all_overshot_iff (hhigh : 1 < high) : (∀ t ∈ trials, t.2 = true) ↔ verdict 1 = true := by
  constructor
  · intro hall
    obtain rfl | hmem := h.below
    · rw [← Bool.not_eq_false, h.fits_iff hagree hmono Nat.one_pos hhigh]
      omega
    · cases hall _ hmem
  · intro hleast t ht
    obtain ⟨hpos, hlt⟩ := h.inRange t ht
    rw [hagree t ht]
    exact hmono 1 t.1 Nat.one_pos hpos hlt hleast

/-- No trial overshoots just if the greatest factor does not. -/
theorem none_overshot_iff (hhigh : 1 < high) :
    (∀ t ∈ trials, ¬ t.2 = true) ↔ verdict (high - 1) = false := by
  constructor
  · intro hnone
    obtain heq | hmem := h.above
    · rw [h.fits_iff hagree hmono (by omega) (by omega)]
      omega
    · exact absurd rfl (hnone _ hmem)
  · intro hgreatest t ht hovershot
    obtain ⟨hpos, hlt⟩ := h.inRange t ht
    rw [hagree t ht] at hovershot
    rw [hmono t.1 (high - 1) hpos (by omega) (by omega) hovershot] at hgreatest
    cases hgreatest

end Verdicts

end Brackets

/-- What a search with steps down to one unit makes of its trials. The induction is on the steps: behind the
    first, half of the range is left. -/
theorem foldlM_lastSteps {s s' : Progress β} {n : Nat}
    (h : (lastSteps n).foldlM (fun s step => (advance trial s step).outcome) s = .ok s') :
    Brackets (tried trial s (lastSteps n)) s.factor (s.factor + 2 ^ n) s'.factor ∧
    (tried trial s (lastSteps n)).length = n ∧
    s'.overshoots = s.overshoots + (tried trial s (lastSteps n)).countP (·.2) := by
  induction n generalizing s with
  | zero =>
    cases h
    exact ⟨.nil _, rfl, rfl⟩
  | succ n ih =>
    rw [lastSteps_succ, List.foldlM_cons] at h
    cases hadvance : (advance trial s (2 ^ n)).outcome with
    | error e =>
      rw [hadvance] at h
      cases h
    | ok next =>
      rw [hadvance] at h
      obtain ⟨o, c, htrial, rfl⟩ := advance_ok hadvance
      obtain ⟨hbrackets, hlength, hcount⟩ := ih h
      simp only [lastSteps_succ, tried, htrial]
      have hpos := Nat.two_pow_pos n
      have hlow : s.factor < s.factor + 2 ^ n := by omega
      have hhigh : s.factor + 2 ^ n < s.factor + 2 ^ (n + 1) := by
        rw [pow_succ]
        omega
      refine ⟨?_, by rw [List.length_cons, hlength], ?_⟩
      · cases o with
        | true => exact hbrackets.cons_overshot hlow hhigh
        | false =>
          have hrange : s.factor + 2 ^ n + 2 ^ n = s.factor + 2 ^ (n + 1) := by
            rw [pow_succ]
            omega
          change Brackets _ (s.factor + 2 ^ n) (s.factor + 2 ^ n + 2 ^ n) _ at hbrackets
          rw [hrange] at hbrackets
          exact hbrackets.cons_fit hlow hhigh
      · rw [hcount, List.countP_cons, Progress.overshoots_after]
        cases o with
        | true =>
          simp only [Bool.toNat_true, if_true]
          omega
        | false => simp

end Search

namespace Policy

open Binary (HasValue)
open Unpacked (Representable)

-- ---------------------------------------------------------------------------
-- Numbers
-- ---------------------------------------------------------------------------

section Numbers

variable {δ : Type} [Scalar δ]

/-- The steps of a loop that goes on while its step is greater than `least`, and halves it each time. The
    loop is cut off after `n` steps. -/
def halvings (least : δ) : Nat → δ → List δ
  | 0, _        => []
  | n + 1, step => if least < step then step :: halvings least n (step * 0.5) else []

/-- A loop that ends by itself is not cut off later either. -/
theorem halvings_of_length_lt {least step : δ} {n m : Nat} (h : (halvings least n step).length < n)
    (hm : n ≤ m) : halvings least m step = halvings least n step := by
  induction n generalizing m step with
  | zero => cases h
  | succ n ih =>
    obtain ⟨m, rfl⟩ : ∃ k, m = k + 1 := ⟨m - 1, by omega⟩
    rw [halvings] at h ⊢
    rw [halvings]
    split
    · next hlt =>
      rw [if_pos hlt, List.length_cons] at h
      rw [ih (Nat.lt_of_succ_lt_succ h) (Nat.le_of_succ_le_succ hm)]
    · rfl

end Numbers

/-- The steps are those from `2 ^ 16` on that are greater than a ten millionth. -/
theorem halvings_eq_steps {n : Nat} (hn : Search.trialCount < n) :
    halvings (0.0000001 : Float) n 65536.0 = Search.steps.map factorOf := by
  have hloop : halvings (0.0000001 : Float) (Search.trialCount + 1) 65536.0 =
      Search.steps.map factorOf := by decide +kernel
  have hlength : (halvings (0.0000001 : Float) (Search.trialCount + 1) 65536.0).length <
      Search.trialCount + 1 := by decide +kernel
  rw [halvings_of_length_lt hlength hn, hloop]

/-- The number of units in 1. -/
theorem hasValue_units : HasValue (8388608.0 : Float) (2 ^ 23) := by
  have hunpack : Binary.unpack (8388608.0 : Float) = .finite .positive (2 ^ 52) (-29) (by decide) := rfl
  constructor <;> rw [hunpack]
  · exact ⟨by decide, by decide, .inl (by decide)⟩
  · norm_num [Unpacked.value, Float.Model.UnpackedFloat.Sign.apply]

theorem units_lt {n : Nat} (hn : n < 2 ^ 40) : (n / 2 ^ 23 : ℚ) < 2 ^ 17 := by
  rw [div_lt_iff₀ (by positivity)]
  exact_mod_cast hn.trans_eq (by norm_num)

theorem representable_units {n : Nat} (hn : n < 2 ^ 40) :
    Representable (Binary.Lawful.format Float) (n / 2 ^ 23) := by
  refine ⟨n, -23, 17, by norm_num [div_eq_mul_inv], ?_, by decide, by decide⟩
  rw [abs_of_nonneg (by positivity)]
  exact_mod_cast units_lt hn

/-- Numbers of units in the range of the search are taken to rate factors without rounding. -/
theorem hasValue_factorOf {n : Nat} (hn : n < 2 ^ 40) :
    HasValue (factorOf n : Float) (n / 2 ^ 23) := by
  have hdigits : |(n : Int)| < 2 ^ (Binary.Lawful.format Float).mantissaBits := by
    have hbits : (Binary.Lawful.format Float).mantissaBits = 53 := by decide
    rw [hbits, Nat.abs_cast]
    omega
  have hcount : HasValue (Scalar.ofNat n : Float) n := by
    have h := @Binary.hasValue_ofInt Float _ _ _ n (by
      rw [← Int.cast_abs, zpow_natCast]
      exact_mod_cast hdigits)
    rwa [Int.cast_natCast] at h
  exact hcount.div hasValue_units (by norm_num) (representable_units hn)

/-- A step is added to a rate factor without rounding. -/
theorem hasValue_raised {m n : Nat} (h : m + n < 2 ^ 40) :
    HasValue (factorOf m + factorOf n : Float) ((m + n : Nat) / 2 ^ 23) := by
  have hsum : (m / 2 ^ 23 + n / 2 ^ 23 : ℚ) = (m + n : Nat) / 2 ^ 23 := by
    push_cast
    ring
  have hm := @hasValue_factorOf m (by omega)
  have hn := @hasValue_factorOf n (by omega)
  rw [← hsum]
  exact hm.add hn (hsum ▸ representable_units h)

/-- A step is taken off a rate factor without rounding. -/
theorem hasValue_lowered {m n : Nat} (h : m + n < 2 ^ 40) :
    HasValue (factorOf (m + n) - factorOf n : Float) (m / 2 ^ 23) := by
  have hdiff : ((m + n : Nat) / 2 ^ 23 - n / 2 ^ 23 : ℚ) = m / 2 ^ 23 := by
    push_cast
    ring
  have hsum := hasValue_factorOf h
  have hn := @hasValue_factorOf n (by omega)
  rw [← hdiff]
  exact hsum.sub hn (hdiff ▸ representable_units (by omega))

-- ---------------------------------------------------------------------------
-- Searches
-- ---------------------------------------------------------------------------

/-- Only the number of trials that overshot decides whether there is no plan that fits. -/
theorem accept_noConvergence_iff {σ δ : Type} [Scalar δ] {overshoots available : Nat} {total : δ} :
    (accept overshoots total available : Attempt (Event σ δ) (Fault σ δ) Unit).outcome =
      .error .noConvergence ↔ overshoots = Search.trialCount := by
  unfold accept
  split
  · next hnone => simp [hnone, Search.trialCount]
  · split
    · next hall => simp [hall]
    · next hsome =>
      split <;> simp [hsome]

/-- The steps of a search are powers of two from `2 ^ 16` down to `2 ^ -23`, so it makes 40 trials, at
    multiples of `2 ^ -23` that are computed exactly, and if it ends above 0 then at a rate factor that did
    not overshoot. If greater factors only overshoot more, it ends at the greatest one that does not. All
    trials overshoot just if the least factor does, and then there is no plan that fits; none does just if
    the greatest factor does not. -/
theorem run_greatest {σ δ ε φ β : Type} [Scalar δ] {trial : Nat → β → Attempt ε φ (Bool × β)} {b : β}
    {s : Search.Progress β} (h : (Search.run trial b).outcome = .ok s) :
    let trials := Search.tried trial ⟨0, 0, b⟩ Search.steps
    (∀ n, 40 < n → halvings (0.0000001 : Float) n 65536.0 = Search.steps.map factorOf) ∧
    (∀ m n, m + n < 2 ^ 40 →
      HasValue (factorOf m + factorOf n : Float) ((m + n : Nat) / 2 ^ 23) ∧
      HasValue (factorOf (m + n) - factorOf n : Float) (m / 2 ^ 23)) ∧
    trials.length = 40 ∧
    (∀ t ∈ trials, HasValue (factorOf t.1 : Float) (t.1 / 2 ^ 23) ∧
      (0 : ℚ) < t.1 / 2 ^ 23 ∧ (t.1 / 2 ^ 23 : ℚ) < 2 ^ 17) ∧
    (s.factor ≠ 0 → (s.factor, false) ∈ trials) ∧
    ∀ verdict : Nat → Bool, (∀ t ∈ trials, t.2 = verdict t.1) →
      (∀ m n, 0 < m → m ≤ n → n < 2 ^ 40 → verdict m = true → verdict n = true) →
      IsGreatest {n | n < 2 ^ 40 ∧ (n = 0 ∨ verdict n = false)} s.factor ∧
      (s.overshoots = 40 ↔ verdict 1 = true) ∧
      (s.overshoots = 0 ↔ verdict (2 ^ 40 - 1) = false) ∧
      ∀ (total : δ) (available : Nat),
        (accept s.overshoots total available : Attempt (Event σ δ) (Fault σ δ) Unit).outcome =
          .error .noConvergence ↔ verdict 1 = true := by
  intro trials
  rw [Search.run, Attempt.outcome_fold] at h
  obtain ⟨hbrackets, hlength, hcount⟩ := Search.foldlM_lastSteps (n := Search.trialCount) h
  change Search.Brackets trials 0 (0 + 2 ^ 40) s.factor at hbrackets
  change trials.length = 40 at hlength
  rw [Nat.zero_add] at hbrackets hcount
  refine ⟨fun n hn => halvings_eq_steps hn, fun m n hmn => ⟨hasValue_raised hmn, hasValue_lowered hmn⟩,
    hlength, fun t ht => ?_, fun hne => hbrackets.below.resolve_left hne, fun verdict hagree hmono => ?_⟩
  · obtain ⟨hpos, hlt⟩ := hbrackets.inRange t ht
    have hcast : (0 : ℚ) < t.1 := by exact_mod_cast hpos
    exact ⟨hasValue_factorOf hlt, by positivity, units_lt hlt⟩
  · have hall : s.overshoots = 40 ↔ verdict 1 = true := by
      rw [← hbrackets.all_overshot_iff hagree hmono (by norm_num), hcount, ← hlength]
      exact List.countP_eq_length
    have hnone : s.overshoots = 0 ↔ verdict (2 ^ 40 - 1) = false := by
      rw [← hbrackets.none_overshot_iff hagree hmono (by norm_num), hcount]
      exact List.countP_eq_zero
    refine ⟨⟨?_, fun n hn => ?_⟩, hall, hnone, fun total available => ?_⟩
    · obtain hzero | hmem := hbrackets.below
      · exact ⟨by rw [hzero]; norm_num, .inl hzero⟩
      · exact ⟨(hbrackets.inRange _ hmem).2, .inr (hagree _ hmem).symm⟩
    · obtain ⟨hlt, rfl | hfit⟩ := hn
      · exact Nat.zero_le _
      · obtain rfl | hpos := Nat.eq_zero_or_pos n
        · exact Nat.zero_le _
        · exact (hbrackets.fits_iff hagree hmono hpos hlt).1 hfit
    · rw [accept_noConvergence_iff]
      exact hall

section

open scoped Exact

/-- Two pictures of which 33 trials overshoot. -/
theorem run_greatest_two_pictures :
    let settings : Settings ℚ := { Settings.standard with equation := some "1", blur := 0.0 }
    let table : List (Record ℚ) :=
      [{ quantizer := 236, plannedQuantizer := 236, predictedBits := 20000 },
       { quantizer := 236, plannedQuantizer := 236, predictedBits := 10000, motionBits := 500 }]
    let start : Carried ℚ ℚ := (⟨table, 0.0⟩, table.foldl State.account (.initial settings))
    let verdict (n : Nat) : Bool := 65003323392 < n
    ∃ (p : Policy ℚ) (found : Search.Progress (Carried ℚ ℚ)),
      (Search.run (p.searchTrial 16000) start).outcome = .ok found ∧
      (∀ t ∈ Search.tried (p.searchTrial 16000) ⟨0, 0, start⟩ Search.steps, t.2 = verdict t.1) ∧
      found.overshoots ≠ 0 ∧ found.overshoots ≠ 40 ∧
      IsGreatest {n | n < 2 ^ 40 ∧ (n = 0 ∨ verdict n = false)} found.factor := by
  intro settings table start verdict
  have h : (ofSettings settings : Attempt (Event ℚ ℚ) (Fault ℚ ℚ) _).outcome.toOption.any (fun p =>
      (Search.run (p.searchTrial 16000) start).outcome.toOption.any fun _ =>
        (Search.tried (p.searchTrial 16000) ⟨0, 0, start⟩ Search.steps).all fun t =>
          t.2 == verdict t.1) = true := by decide +kernel
  obtain ⟨p, -, h⟩ := Attempt.exists_ok_of_any h
  obtain ⟨found, hfound, h⟩ := Attempt.exists_ok_of_any h
  simp only [List.all_eq_true, beq_iff_eq] at h
  have hmono : ∀ m n, 0 < m → m ≤ n → n < 2 ^ 40 → verdict m = true → verdict n = true := by
    intro m n _ hle _ hm
    simp only [verdict, decide_eq_true_eq] at hm ⊢
    omega
  obtain ⟨-, -, -, -, -, hsearch⟩ := run_greatest (σ := ℚ) (δ := ℚ) hfound
  obtain ⟨hgreatest, hall, hnone, -⟩ := hsearch verdict h hmono
  refine ⟨p, found, hfound, h, fun hzero => ?_, fun hforty => ?_, hgreatest⟩
  · exact absurd (hnone.1 hzero) (by decide)
  · exact absurd (hall.1 hforty) (by decide)

end

end Policy
end RateControl
