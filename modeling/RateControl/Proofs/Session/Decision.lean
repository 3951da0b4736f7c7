-- SUMMARY: Every decision of a run is a whole quantizer in the lambda range of its picture type, unless the estimate came to NaN.
import RateControl.Proofs.Binary.Double
import RateControl.Proofs.Session.Run
import RateControl.Proofs.Validation

/-! # Decisions

An estimate comes to a candidate, which is then narrowed, clipped and rounded. Clipping compares twice, and
both comparisons fail on NaN, so a candidate that is NaN goes through to the decision. Everything else ends
in the lambda range. -/

namespace RateControl

open Binary (HasValue hasValue_int32 hasValue_zero minExponent_le two_pow_le_bound)
open Unpacked (value)

/-! ## Lambda ranges -/

theorem hasValue_lambda {n : Int} (hlow : 1 ≤ n) (hhigh : n ≤ lambdaMax) :
    HasValue (Scalar.ofInt n : Float32) n := by
  apply Binary.hasValue_ofInt
  have hn : n < 2 ^ 24 := by
    rw [lambdaMax] at hhigh
    omega
  have hpos : (0 : ℚ) ≤ n := by exact_mod_cast (by omega : 0 ≤ n)
  rw [abs_of_nonneg hpos]
  exact_mod_cast hn

/-! ## Rounding -/

theorem hasValue_half : HasValue (0.5 : Float32) (1 / 2) := by
  have hunpack : Binary.unpack (0.5 : Float32) = .finite .positive (2 ^ 23) (-24) (by decide) := rfl
  constructor <;> rw [hunpack]
  · exact ⟨by decide, by decide, .inl (by decide)⟩
  · norm_num [value, Float.Model.UnpackedFloat.Sign.apply]

/-- Half a unit more, and rounded down: a quantizer between two lambdas is rounded to one of the lambdas
    between them. -/
theorem floor_add_half {q : Float32} {x : ℚ} {lo hi : Int} (hq : HasValue q x) (hlow : 1 ≤ lo)
    (hhigh : hi ≤ lambdaMax) (hlo : lo ≤ x) (hhi : x ≤ hi) :
    ∃ n : Int, lo ≤ n ∧ n ≤ hi ∧ HasValue (Scalar.floor (q + 0.5)) n := by
  have hbias : (Binary.Lawful.format Float32).exponentBias = 127 := by decide
  have hmax : (hi : ℚ) ≤ 32767 := by exact_mod_cast hhigh
  have hmin : (1 : ℚ) ≤ lo := by exact_mod_cast hlow
  have hrange : |x + 1 / 2| < 2 ^ (15 : Int) := by
    rw [abs_of_nonneg (by linarith)]
    norm_num
    linarith
  have hround := hq.rounded_add hasValue_half (hrange.le.trans (by rw [hbias]; norm_num))
  obtain ⟨t, hnear, ht⟩ := hround.near
  have htarget : t ≤ -1 := (ht 15 hrange).trans (by decide)
  have hz := HasValue.of_rounded hround
  set z := value (Binary.unpack (q + 0.5)) with hzdef
  -- The bounds of the exact sum are multiples of one half, so they are bounds of the rounded sum too.
  have hbelow : ((2 * lo + 1 : Int) : ℚ) * 2 ^ (-1 : Int) ≤ z :=
    hnear.le_of_le htarget (by push_cast; norm_num; linarith)
  have habove : z ≤ ((2 * hi + 1 : Int) : ℚ) * 2 ^ (-1 : Int) :=
    hnear.ge_of_ge htarget (by push_cast; norm_num; linarith)
  push_cast at hbelow habove
  norm_num at hbelow habove
  have hfloor : lo ≤ ⌊z⌋ := Int.le_floor.2 (by linarith)
  have hfloor' : ⌊z⌋ ≤ hi := Int.lt_add_one_iff.1 (Int.floor_lt.2 (by push_cast; linarith))
  refine ⟨⌊z⌋, hfloor, hfloor', hz.floor ?_⟩
  have hbits : (Binary.Lawful.format Float32).mantissaBits = 24 := by decide
  have hlt : ⌊z⌋ < 2 ^ 24 := by
    rw [lambdaMax] at hhigh
    omega
  rw [abs_of_nonneg (by exact_mod_cast (by omega : 0 ≤ ⌊z⌋)), hbits]
  exact_mod_cast hlt

/-! ## Decisions -/

/-- What becomes of a candidate. It is lost if it is NaN; otherwise the quantizer lies in the range, and
    is whole where there are no lambdas. -/
structure Decision.Fits (range : LambdaRange) (candidate : Float) (d : Decision Float32) : Prop where
  isNaN_iff : Scalar.isNaN d.quantizer = true ↔ Scalar.isNaN candidate = true
  inRange : Scalar.isNaN candidate = false →
    Scalar.ofInt range.least ≤ d.quantizer ∧ d.quantizer ≤ Scalar.ofInt range.greatest
  whole : Scalar.isNaN candidate = false → d.lambdas = none →
    ∃ n : Int, range.least ≤ n ∧ n ≤ range.greatest ∧ (d.quantizer == Scalar.ofInt n) = true

namespace Session

section Candidates

variable {σ δ : Type} [Scalar σ] [Scalar δ] [Precision σ δ]

/-- A candidate narrowed and clipped to a range. -/
def clippedTo (range : LambdaRange) (candidate : δ) : σ :=
  Settings.clipped (Scalar.ofInt range.least) (Scalar.ofInt range.greatest) (narrow candidate)

/-- The decision on a candidate. -/
def settle (settings : Settings σ) (f : Frame) (candidate : δ) : Decision σ :=
  (decide settings.masking f
    (clippedTo (settings.quantizer.lambdaRange δ f.pictureType) candidate) :
    Logged (Event σ δ) (Decision σ)).value

theorem settle_cases (settings : Settings σ) (f : Frame) (candidate : δ) :
    let q : σ := clippedTo (settings.quantizer.lambdaRange δ f.pictureType) candidate
    (settle settings f candidate).quantizer = q ∧ (settle settings f candidate).lambdas ≠ none ∨
      (settle settings f candidate).quantizer = Scalar.floor (q + 0.5) := by
  simp only [settle, decide]
  split
  · exact .inl ⟨rfl, by simp⟩
  · exact .inr rfl

/-- The candidate that an estimate comes to. A second pass takes it from the plan; a single pass makes a
    proposal, once it knows the size of the picture before. -/
def candidate? (s : Session σ δ) (f : Frame) : Option δ :=
  if s.isSecondPass then
    (s.record? f.picture).map fun r =>
      widen r.plannedQuantizer / compensation s.policy.settings f (Int64.ofNat r.plannedBits)
  else
    let state := if 2 < f.picture then s.state.learn f.lastType f.lastBits.toInt else s.state
    let compensation := compensation s.policy.settings f (wantedBits δ s.policy.settings f)
    (s.policy.propose state f compensation).value.1.toOption.map (·.quantizer)

/-- In a second pass every picture of the table gets a decision. -/
theorem assess_planned {s : Session σ δ} {f : Frame} {r : Record σ} (hpass : s.isSecondPass = true)
    (hr : s.record? f.picture = some r) :
    (s.assess f).value.1 = .ok (settle s.policy.settings f
      (widen r.plannedQuantizer / compensation s.policy.settings f (Int64.ofNat r.plannedBits) : δ)) := by
  rw [assess, if_pos hpass, estimatePlanned, hr]
  rfl

/-- The decision of an estimate is that on its candidate. -/
theorem assess_ok {s : Session σ δ} {f : Frame} {d : Decision σ}
    (h : (s.assess f).value.1 = .ok d) :
    ∃ candidate, s.candidate? f = some candidate ∧ d = settle s.policy.settings f candidate := by
  unfold assess at h
  unfold candidate?
  split at h
  · next hpass =>
    rw [if_pos hpass]
    unfold estimatePlanned at h
    split at h
    · cases h
    · next r hr =>
      rw [hr]
      cases h
      exact ⟨_, rfl, rfl⟩
  · next hpass =>
    rw [if_neg hpass]
    simp only [estimateUnplanned, Logged.value_bind] at h
    split at h
    · cases h
    · next c state hc =>
      dsimp only
      rw [hc]
      cases h
      exact ⟨_, rfl, rfl⟩

end Candidates

theorem settle_fits (settings : Settings Float32) (f : Frame) (candidate : Float) :
    (settle settings f candidate).Fits (settings.quantizer.lambdaRange Float f.pictureType) candidate := by
  obtain ⟨hlow, hle, hhigh⟩ := settings.quantizer.lambdaRange_bounds Float f.pictureType
  have hquantizer := settle_cases settings f candidate
  generalize settings.quantizer.lambdaRange Float f.pictureType = range at *
  dsimp only [clippedTo] at hquantizer
  have hleast := hasValue_lambda hlow (hle.trans hhigh)
  have hgreatest := hasValue_lambda (hlow.trans hle) hhigh
  have hcast : (range.least : ℚ) ≤ range.greatest := by exact_mod_cast hle
  have hnarrow := Binary.isNaN_narrow candidate
  obtain ⟨hnan, hclip⟩ | ⟨hnum, x, hx, hxlow, hxhigh⟩ :=
    Binary.clipped_cases (narrow candidate : Float32) hleast hgreatest hcast
  · have hcandidate : Scalar.isNaN candidate = true := by rw [← hnarrow, hnan]
    rw [hclip] at hquantizer
    refine ⟨iff_of_true ?_ hcandidate, by simp [hcandidate], by simp [hcandidate]⟩
    obtain ⟨hq, -⟩ | hq := hquantizer
    · rw [hq, hnan]
    · rw [hq]
      exact Binary.isNaN_floor (Binary.isNaN_add hnan)
  · have hcandidate : Scalar.isNaN candidate = false := by rw [← hnarrow, hnum]
    obtain ⟨hq, hlambdas⟩ | hq := hquantizer
    · rw [← hq] at hx
      refine ⟨by simp [hx.isNaN, hcandidate], fun _ => ⟨?_, ?_⟩, fun _ h => absurd h hlambdas⟩
      · rwa [hleast.le_iff hx]
      · rwa [hx.le_iff hgreatest]
    · obtain ⟨n, hnlow, hnhigh, hn⟩ := floor_add_half hx hlow hhigh hxlow hxhigh
      rw [← hq] at hn
      have hint := hasValue_lambda (hlow.trans hnlow) (hnhigh.trans hhigh)
      refine ⟨by simp [hn.isNaN, hcandidate], fun _ => ⟨?_, ?_⟩, fun _ _ => ⟨n, hnlow, hnhigh, ?_⟩⟩
      · rw [hleast.le_iff hn]
        exact_mod_cast hnlow
      · rw [hn.le_iff hgreatest]
        exact_mod_cast hnhigh
      · rw [hn.beq_iff hint]

/-! ## Compensation -/

theorem hasValue_thousandth : ∃ x, 0 < x ∧ HasValue (0.001 : Float) x := by
  have hunpack : Binary.unpack (0.001 : Float) =
      .finite .positive 0x10624DD2F1A9FC (-62) (by decide) := rfl
  refine ⟨0x10624DD2F1A9FC * 2 ^ (-62 : Int), by norm_num, ?_, ?_⟩ <;> rw [hunpack]
  · exact ⟨by decide, by decide, .inl (by decide)⟩
  · norm_num [value, Float.Model.UnpackedFloat.Sign.apply]

/-- A number of 64 bits is rounded but finite. -/
theorem hasValue_int64 (n : Int64) :
    ∃ y, |y| ≤ 2 ^ (63 : Int) ∧ HasValue (Scalar.ofInt n.toInt : Float) y := by
  have hle : |(n.toInt : ℚ)| ≤ 2 ^ (63 : Int) := by
    have := n.toInt_lt
    have := n.le_toInt
    rw [← Int.cast_abs]
    exact_mod_cast (abs_le.2 ⟨by omega, by omega⟩ : |n.toInt| ≤ 2 ^ 63)
  have hround := @Binary.Lawful.rounded_ofInt Float _ _ _ _ (hle.trans (two_pow_le_bound (by norm_num)))
  exact ⟨_, hround.abs_value_le (minExponent_le (by norm_num)) hle, .of_rounded hround⟩

/-- The compensation is a positive number, whatever the drift. -/
theorem compensation_pos {σ : Type} [Scalar σ] {settings : Settings σ}
    (h : 0 < settings.tolerance.toInt) (f : Frame) (wanted : Int64) :
    ∃ x, 0 < x ∧ HasValue (compensation settings f wanted : Float) x := by
  have htolerance := hasValue_int32 settings.tolerance
  obtain ⟨drift, hdrift, hvalue⟩ := hasValue_int64 (f.totalBits - wanted)
  have hone : (1 : ℚ) ≤ settings.tolerance.toInt := by exact_mod_cast h
  have hlt : (settings.tolerance.toInt : ℚ) < 2 ^ (31 : Int) := by
    exact_mod_cast settings.tolerance.toInt_lt
  have hroom : |(settings.tolerance.toInt : ℚ) - drift| ≤ 2 ^ (64 : Int) := by
    rw [abs_le] at hdrift ⊢
    norm_num at hdrift hlt ⊢
    constructor <;> linarith
  have hsub := htolerance.rounded_sub hvalue (hroom.trans (two_pow_le_bound (by norm_num)))
  have hsub' := hsub.abs_value_le (minExponent_le (by norm_num)) hroom
  -- Division by at least 1 leads to nothing greater, so the quotient is finite as well.
  have hquot : |value (Binary.unpack ((Scalar.ofInt settings.tolerance.toInt : Float) -
      Scalar.ofInt (f.totalBits - wanted).toInt)) / settings.tolerance.toInt| ≤ 2 ^ (64 : Int) := by
    rw [abs_div, abs_of_pos (by linarith : (0 : ℚ) < settings.tolerance.toInt)]
    exact (div_le_self (abs_nonneg _) hone).trans hsub'
  have hdiv := (HasValue.of_rounded hsub).rounded_div htolerance (by linarith)
    (hquot.trans (two_pow_le_bound (by norm_num)))
  unfold compensation
  dsimp only
  split
  · exact hasValue_thousandth
  · next hpos =>
    rw [(HasValue.of_rounded hdiv).le_iff hasValue_zero] at hpos
    exact ⟨_, not_le.1 hpos, .of_rounded hdiv⟩

/-- In a second pass the candidate is NaN just when the planned quantizer is. -/
theorem isNaN_planned {settings : Settings Float32} (h : 0 < settings.tolerance.toInt) (f : Frame)
    (wanted : Int64) (q : Float32) :
    Scalar.isNaN (widen q / compensation settings f wanted : Float) = Scalar.isNaN q := by
  obtain ⟨x, hpos, hx⟩ := compensation_pos h f wanted
  rw [Binary.isNaN_div hx hpos.ne', Binary.isNaN_widen]

/-! ## Runs -/

/-- Every decision of a run is that on the candidate of its estimate: NaN if the candidate is NaN, and
    otherwise in the range of the picture type, and whole where there are no lambdas. In a second pass it
    is NaN just when the plan holds NaN for the picture. -/
theorem run_decision {settings : Settings Float32} {statistics : Option (Log Float32)}
    {s : Session Float32 Float} (hcreate : (create settings statistics).outcome = .ok s)
    {steps : List Step} {i : Nat} {f : Frame} {dryRun : Bool} (hstep : steps[i]? = some (.estimate f dryRun))
    {d : Decision Float32}
    (hanswer : ((s.run steps).1[i]?).map (·.value) = some (.decision (.ok d))) :
    ∃ candidate, (s.run (steps.take i)).2.candidate? f = some candidate ∧
      d.Fits (settings.quantizer.lambdaRange Float f.pictureType) candidate ∧
      (s.isSecondPass = true → ∃ r, s.table[f.picture]? = some r ∧
        (Scalar.isNaN candidate = true ↔ Scalar.isNaN r.plannedQuantizer = true)) := by
  obtain ⟨hvalid, hsettings⟩ := create_ok hcreate
  obtain ⟨hpolicy, htable⟩ := s.run_fixed (steps.take i)
  rw [run_answer s hstep] at hanswer
  generalize (s.run (steps.take i)).2 = t at hanswer hpolicy htable ⊢
  have hassess : (t.assess f).value.1 = .ok d := by
    have h : (t.estimate f dryRun).value.1 = .ok d := by
      injection hanswer with h
      injection h
    rwa [estimate_value] at h
  obtain ⟨candidate, hcandidate, rfl⟩ := assess_ok hassess
  rw [hpolicy, hsettings]
  refine ⟨candidate, hcandidate, settle_fits _ _ _, fun hpass => ?_⟩
  have hpass' : t.isSecondPass = true := by rwa [isSecondPass, htable]
  rw [candidate?, if_pos hpass', hpolicy, hsettings] at hcandidate
  obtain ⟨r, hr, rfl⟩ := Option.map_eq_some_iff.1 hcandidate
  refine ⟨r, by rwa [record?, htable] at hr, ?_⟩
  rw [isNaN_planned (Settings.tolerance_pos hvalid)]

/-- An equation that is infinite is no NaN, and is accepted; the second picture already gets no number. -/
theorem run_decision_infinite_equation :
    let settings : Settings Float32 := { Settings.standard with equation := some "1/0" }
    let frame (i : Nat) : Frame := { picture := i }
    let steps : List Step := [.estimate (frame 0) false, .estimate (frame 1) false]
    ∃ (s : Session Float32 Float) (d : Decision Float32) (candidate : Float),
      (create settings none).outcome = .ok s ∧
      ((s.run steps).1[1]?).map (·.value) = some (.decision (.ok d)) ∧
      Scalar.isNaN d.quantizer = true ∧
      d.Fits (settings.quantizer.lambdaRange Float .predicted) candidate := by
  intro settings frame steps
  have h : (create settings none : Attempt (Event Float32 Float) _ _).outcome.toOption.any (fun s =>
      (((s.run steps).1[1]?).map (·.value)).any fun a =>
        a.decision?.any fun d => Scalar.isNaN d.quantizer) = true := by decide +kernel
  obtain ⟨s, hs, h⟩ := Attempt.exists_ok_of_any h
  obtain ⟨a, ha, h⟩ := (Option.any_eq_true _ _).1 h
  obtain ⟨d, hd, hnan⟩ := (Option.any_eq_true _ _).1 h
  rw [Answer.decision?_eq_some.1 hd] at ha
  obtain ⟨candidate, -, hfits, -⟩ := run_decision hs (i := 1) rfl ha
  exact ⟨s, d, candidate, hs, ha, hnan, hfits⟩

end Session
end RateControl
