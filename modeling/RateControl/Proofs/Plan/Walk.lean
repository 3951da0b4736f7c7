-- SUMMARY: The backward walk of a trial is a run of the limiter, so neighbouring quantizers of a type are at most one step apart.
import RateControl.Proofs.Grant
import RateControl.Proofs.Plan.Restart

/-! # Backward walks

Later pictures bind earlier ones: the limiter goes through the granted quantizers from the last to the first. It
starts with a history whose last quantizers are from 1 on, in every trial of a search, since all that was granted
and limited before is. So what holds of a run of the limiter holds of the curve that it leaves. -/

namespace RateControl

open scoped Exact

variable {σ K : Type} [Scalar σ] [Field K] [LinearOrder K] [IsStrictOrderedRing K] [FloorRing K]
  [Transcendental K] [Precision σ K]

namespace Policy

omit [IsStrictOrderedRing K] in
/-- In exact arithmetic every picture is granted a quantizer, from 1 on. -/
theorem exists_grant (p : Policy σ) (sums : PerType (Sums K)) (factor : K) (a : Record σ × Nat) :
    ∃ g, (p.grant sums a.1 factor a.2 : Attempt (Event σ K) (Fault σ K) _).outcome = .ok g ∧ 1 ≤ g.quantizer := by
  refine ⟨_, outcome_grant_of_value rfl factor a.2, ?_⟩
  rw [quantizerOf, History.atLeastOne_eq]
  exact le_max_left _ _

omit [IsStrictOrderedRing K] in
theorem exists_grantAll (p : Policy σ) (factor : K) {st : State K} (hst : st.history.FromOne)
    (table : List (Record σ)) :
    ∃ qs st', (p.grantAll factor st table : Attempt (Event σ K) (Fault σ K) _).outcome = .ok (qs, st') ∧
      qs.length = table.length ∧ st'.history.FromOne := by
  choose g hg hone using p.exists_grant st.sums factor
  refine ⟨_, _, grantAll_of_grant hg, by simp, fun t => ?_⟩
  refine History.overwrite_induction (1 ≤ ·) (fun a ha => ?_) (.inr (hst t))
  obtain ⟨b, hb, hab⟩ := List.mem_map.1 (List.of_mem_zip ha).2
  obtain ⟨c, -, rfl⟩ := List.mem_map.1 hb
  exact hab ▸ hone c

/-- Trials keep all last quantizers from 1 on. -/
theorem fromOne_of_trial {p : Policy σ} (hs : 0 ≤ p.settings.quantizer.maxStep.toInt) {factor : K}
    {st st' : State K} {table : List (Record σ)} {t : Trial σ K} (hst : st.history.FromOne)
    (h : (p.trial factor st table).outcome = .ok (t, st')) : st'.history.FromOne := by
  obtain ⟨qs, st₁, hgrants, -, hone⟩ := p.exists_grantAll factor hst table
  rw [outcome_trial, hgrants] at h
  injection h with h
  obtain ⟨-, rfl⟩ := Prod.mk.inj h
  dsimp only
  rw [limitBackwards_eq]
  exact (hone.limitAll hs _).1

omit [Scalar σ] [IsStrictOrderedRing K] in
theorem history_account (st : State K) (table : List (Record σ)) :
    (table.foldl State.account st).history = st.history := by
  induction table generalizing st with
  | nil => rfl
  | cons r rest ih => exact ih (st.account r)

/-- Every trial of a plan is of the pictures of the table, and starts with last quantizers from 1 on. -/
theorem fromOne_of_visits {p : Policy σ} (hs : 0 ≤ p.settings.quantizer.maxStep.toInt) {st : State K}
    (hst : st.history.FromOne) (table : List (Record σ)) :
    ∀ v ∈ p.visits st table,
      v.2.1.table.map (·.pictureType) = table.map (·.pictureType) ∧ v.2.2.history.FromOne := by
  unfold visits
  refine Search.forall_visits (fun c : Carried σ K =>
    c.1.table.map (·.pictureType) = table.map (·.pictureType) ∧ c.2.history.FromOne) ?_ ?_ _
  · intro n b o c hb h
    obtain ⟨htypes, hone⟩ := hb
    have htrial := (searchTrial_ok h).1
    exact ⟨(Record.pictureType_of_replans (trial_ok htrial).1).trans htypes, fromOne_of_trial hs hone htrial⟩
  · exact ⟨rfl, by rwa [history_account]⟩

/-- The walk over a curve leaves neighbouring quantizers of a type within the greatest step. -/
theorem withinStep_limitBackwards {p : Policy σ} (hs : 0 ≤ p.settings.quantizer.maxStep.toInt) (h : History K)
    (curve : Blur.Curve K) :
    History.WithinStep p.settings.quantizer ((curve.map (·.1)).zip (p.limitBackwards h curve).1) := by
  have hwalk := (History.withinStep_limitAll hs h curve.reverse).reverse
  rw [List.zip_eq_zipWith, List.reverse_zipWith (by simp [History.length_limitAll]), ← List.zip_eq_zipWith,
    List.map_reverse, List.reverse_reverse] at hwalk
  rwa [limitBackwards_eq]

/-- The limiter over whole runs, with a greatest step that is not negative, from a history with last quantizers
    from 1 on. Behind any calls, the next one yields a quantizer from 1 on, which is the last one of its type
    from then on, and changes no other type's; the last reference is the latest picture that is not a B picture;
    and the quantizer is at most one step of `118 * maxStep` away from the last one of its type, for an I picture
    if the last reference is an I picture. So neighbouring quantizers of a run are within this step. The walks of
    all trials of a plan are such runs, and so this holds of the curve of each before it is blurred. -/
theorem limits_within_step {s : QuantizerSettings σ} (hs : 0 ≤ s.maxStep.toInt) :
    (∀ h : History K, h.FromOne →
      (∀ (before : List (PictureType × K)) (t : PictureType) (q : K),
        let x := ((h.limitAll s before).2.limit s t q).1
        let after := (h.limitAll s (before ++ [(t, q)])).2
        (h.limitAll s (before ++ [(t, q)])).1 = (h.limitAll s before).1 ++ [x] ∧
        1 ≤ x ∧ after.last.get t = x ∧
        (∀ u, u ≠ t → after.last.get u = (h.limitAll s before).2.last.get u) ∧
        after.reference = (History.lastReference (before.map (·.1) ++ [t])).or h.reference ∧
        (t ≠ .intra ∨ (History.lastReference (before.map (·.1))).or h.reference = some .intra →
          |x - (h.limitAll s before).2.last.get t| ≤ 118 * s.maxStep.toInt)) ∧
      ∀ calls : List (PictureType × K), History.WithinStep s ((calls.map (·.1)).zip (h.limitAll s calls).1)) ∧
    ∀ (p : Policy σ) (st : State K) (table : List (Record σ)), p.settings.quantizer = s → st.history.FromOne →
      ∀ v ∈ p.visits st table, ∃ qs st',
        (p.grantAll (factorOf v.1) v.2.2 v.2.1.table : Attempt (Event σ K) (Fault σ K) _).outcome = .ok (qs, st') ∧
        st'.history.FromOne ∧
        let curve := (table.map (·.pictureType)).zip qs
        let xs := (p.limitBackwards st'.history curve).1
        xs = (st'.history.limitAll s curve.reverse).1.reverse ∧ xs.length = table.length ∧
        (∀ x ∈ xs, 1 ≤ x) ∧ History.WithinStep s ((table.map (·.pictureType)).zip xs) := by
  refine ⟨fun h hh => ⟨fun before t q => ?_, h.withinStep_limitAll hs⟩, ?_⟩
  · have hbefore := (hh.limitAll hs before).1
    intro x after
    have hafter : after = ((h.limitAll s before).2.limit s t q).2 := by
      simp only [after, History.limitAll_append]
      rfl
    refine ⟨by rw [History.limitAll_append]; rfl, hbefore.one_le_limit hs t q, ?_, fun u hu => ?_, ?_, fun ht => ?_⟩
    · rw [hafter, History.last_limit_self]
    · rw [hafter, History.last_limit_of_ne _ _ hu]
    · simpa using h.reference_limitAll s (before ++ [(t, q)])
    · rw [← h.reference_limitAll s before] at ht
      rw [← History.maxStep_eq]
      exact (h.limitAll s before).2.abs_limit_sub_le hs ht q
  · rintro p st table rfl hst v hv
    obtain ⟨htypes, hone⟩ := fromOne_of_visits hs hst table v hv
    obtain ⟨qs, st', hgrants, hlength, hone'⟩ := p.exists_grantAll (factorOf v.1) hone v.2.1.table
    have hlength : (table.map (·.pictureType)).length = qs.length := by
      rw [← htypes, List.length_map, hlength]
    have hcurve : ((table.map (·.pictureType)).zip qs).map (·.1) = table.map (·.pictureType) :=
      List.map_fst_zip hlength.le
    have hstep := withinStep_limitBackwards hs st'.history ((table.map (·.pictureType)).zip qs)
    rw [hcurve] at hstep
    refine ⟨qs, st', hgrants, hone', by rw [limitBackwards_eq], ?_, fun x hx => ?_, hstep⟩
    · simp [length_limitBackwards, ← hlength]
    · rw [limitBackwards_eq, List.mem_reverse] at hx
      exact (hone'.limitAll hs _).2 x hx

/-- A P picture that would step too far down from another one, with a B picture between them, and a plan of three
    pictures. -/
theorem limits_within_step_three_pictures :
    let settings : Settings ℚ := { Settings.standard with equation := some "1", blur := 0.0 }
    let calls : List (PictureType × ℚ) := [(.predicted, 900), (.bidirectional, 10), (.predicted, 300)]
    let table : List (Record ℚ) :=
      [{ quantizer := 236, plannedQuantizer := 0, predictedBits := 20000 },
       { pictureType := .bidirectional, quantizer := 236, plannedQuantizer := 0, predictedBits := 10000 },
       { quantizer := 236, plannedQuantizer := 0, predictedBits := 90000 }]
    0 ≤ settings.quantizer.maxStep.toInt ∧
    ((History.initial : History ℚ).limitAll settings.quantizer calls).1 = [900, 944, 546] ∧
    History.WithinStep settings.quantizer
      [(.predicted, 900), (.bidirectional, 944), (.predicted, (546 : ℚ))] ∧
    ∃ (p : Policy ℚ) (v : Nat × Carried ℚ ℚ) (qs : List ℚ) (st' : State ℚ),
      v ∈ p.visits (.initial settings) table ∧
      (p.grantAll (factorOf v.1) v.2.2 v.2.1.table : Attempt (Event ℚ ℚ) (Fault ℚ ℚ) _).outcome = .ok (qs, st') ∧
      History.WithinStep settings.quantizer ((table.map (·.pictureType)).zip
        (p.limitBackwards st'.history ((table.map (·.pictureType)).zip qs)).1) := by
  intro settings calls table
  have hs : 0 ≤ settings.quantizer.maxStep.toInt := by decide
  have hcalls : ((History.initial : History ℚ).limitAll settings.quantizer calls).1 = [900, 944, 546] := by
    decide +kernel
  obtain ⟨hruns, hplans⟩ := limits_within_step (σ := ℚ) (K := ℚ) hs
  have hrun := (hruns _ History.fromOne_initial).2 calls
  rw [hcalls] at hrun
  have h : (ofSettings settings : Attempt (Event ℚ ℚ) (Fault ℚ ℚ) _).outcome.toOption.any (fun p =>
      (p.visits (State.initial settings : State ℚ) table).length == 40) = true := by decide +kernel
  obtain ⟨p, hp, h⟩ := Attempt.exists_ok_of_any h
  have hlength := beq_iff_eq.1 h
  obtain ⟨v, hv⟩ :=
    List.exists_mem_of_length_pos (l := p.visits (State.initial settings : State ℚ) table) (by omega)
  have hquantizer : p.settings.quantizer = settings.quantizer := by rw [(ofSettings_ok hp).1]
  obtain ⟨qs, st', hgrants, -, -, -, -, hwithin⟩ :=
    hplans p (.initial settings) table hquantizer History.fromOne_initial v hv
  exact ⟨hs, hcalls, hrun, p, v, qs, st', hv, hgrants, hwithin⟩

end Policy
end RateControl
