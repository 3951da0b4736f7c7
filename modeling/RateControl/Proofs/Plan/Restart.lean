-- SUMMARY: A trial finds nothing of the trials before it, so behind the first one its answer depends on the rate factor alone.
import RateControl.Proofs.History
import RateControl.Proofs.Plan.Budget
import RateControl.Proofs.Plan.Unplanned

/-! # Trials one after the other

One state goes through all trials of a search, and each trial leaves its own quantizers, buffer and plan in it.
The next one writes over all of them before it reads them: its grants are the last quantizers of every type in
the table, its buffer starts half full, and it plans every record anew. What it does read of its start is fixed,
but for the type of the last reference, and that is the same behind every trial. -/

namespace RateControl

open Line (unplanned)

variable {σ δ : Type} [Scalar σ] [Scalar δ] [Precision σ δ]

-- ---------------------------------------------------------------------------
-- States
-- ---------------------------------------------------------------------------

/-- The states differ in nothing that a trial on pictures of these types reads: they have the same sums, the same
    buffer up to what is in it, the same last reference, and the same last quantizers of all other types. -/
structure State.AlikeFor (types : List PictureType) (st st' : State δ) : Prop where
  sums : st'.sums = st.sums
  buffer : st'.buffer.halfFull = st.buffer.halfFull
  reference : st'.history.reference = st.history.reference
  last_of_absent : ∀ t ∉ types, st'.history.last.get t = st.history.last.get t

/-- The state with the last reference that a trial on pictures of these types ends with. The limiter comes to
    the first picture last. -/
def State.settled (st : State δ) (types : List PictureType) : State δ :=
  { st with
    history := { st.history with reference := (types.find? (· ≠ .bidirectional)).or st.history.reference } }

namespace State.AlikeFor

variable {types : List PictureType} {st₁ st₂ st₃ : State δ}

theorem trans (h₁₂ : AlikeFor types st₁ st₂) (h₂₃ : AlikeFor types st₂ st₃) : AlikeFor types st₁ st₃ where
  sums := h₂₃.sums.trans h₁₂.sums
  buffer := h₂₃.buffer.trans h₁₂.buffer
  reference := h₂₃.reference.trans h₁₂.reference
  last_of_absent t ht := (h₂₃.last_of_absent t ht).trans (h₁₂.last_of_absent t ht)

/-- A state that is settled once stays so. -/
theorem settled (h : AlikeFor types (st₁.settled types) st₂) :
    AlikeFor types (st₁.settled types) (st₂.settled types) where
  sums := h.sums
  buffer := h.buffer
  reference := by
    simp only [State.settled, h.reference]
    cases types.find? (· ≠ .bidirectional) <;> rfl
  last_of_absent := h.last_of_absent

end State.AlikeFor

namespace History

omit [Scalar δ] in
/-- A curve with a value for each of its types leaves no trace of the last quantizers of these types. -/
theorem overwrite_congr {h h' : History δ} {types : List PictureType} {qs : List δ}
    (hlength : types.length = qs.length) (hreference : h'.reference = h.reference)
    (hlast : ∀ t ∉ types, h'.last.get t = h.last.get t) :
    h'.overwrite (types.zip qs) = h.overwrite (types.zip qs) := by
  suffices ∀ last last' : PerType δ, (∀ t ∉ types, last'.get t = last.get t) →
      (types.zip qs).foldl (fun last a => last.set a.1 a.2) last' =
        (types.zip qs).foldl (fun last a => last.set a.1 a.2) last by
    simp only [overwrite, this _ _ hlast, hreference]
  clear hlast
  -- Every write leaves one type less in which the two can differ.
  induction types generalizing qs with
  | nil => exact fun last last' hlast => PerType.ext_get fun t => hlast t (by simp)
  | cons t types ih =>
    cases qs with
    | nil => cases hlength
    | cons q qs =>
      intro last last' hlast
      refine ih (by simpa using hlength) _ _ fun u hu => ?_
      by_cases hut : u = t
      · subst hut
        simp
      · rw [PerType.get_set_of_ne _ _ hut, PerType.get_set_of_ne _ _ hut]
        exact hlast u (by simp [hut, hu])

omit [Scalar δ] in
theorem last_overwrite_of_absent {h : History δ} {t : PictureType} {curve : Blur.Curve δ}
    (ht : t ∉ curve.map (·.1)) : (h.overwrite curve).last.get t = h.last.get t := by
  induction curve generalizing h with
  | nil => rfl
  | cons a rest ih =>
    rw [List.map_cons, List.mem_cons, not_or] at ht
    exact (@ih { h with last := h.last.set a.1 a.2 } ht.2).trans (PerType.get_set_of_ne _ _ ht.1)

end History

omit [Scalar σ] in
theorem Record.pictureType_of_replans {table table' : List (Record σ)} (h : List.Forall₂ Replans table table') :
    table'.map (·.pictureType) = table.map (·.pictureType) := by
  induction h with
  | nil => rfl
  | cons hr _ ih =>
    rw [List.map_cons, List.map_cons, ih, hr]

namespace Policy

/-- The backward walk is a run of the limiter over the curve from its end. -/
theorem limitBackwards_eq (p : Policy σ) (h : History δ) (curve : Blur.Curve δ) :
    p.limitBackwards h curve =
      ((h.limitAll p.settings.quantizer curve.reverse).1.reverse,
        (h.limitAll p.settings.quantizer curve.reverse).2) := by
  induction curve with
  | nil => rfl
  | cons a rest ih =>
    rw [List.reverse_cons, History.limitAll_append, List.reverse_append]
    simp only [limitBackwards, List.foldr_cons] at ih ⊢
    rw [ih]
    rfl

-- ---------------------------------------------------------------------------
-- Trials
-- ---------------------------------------------------------------------------

/-- A trial answers alike in states that are alike for its pictures. -/
theorem trial_congr (p : Policy σ) (factor : δ) {st st' : State δ} {table : List (Record σ)}
    (h : State.AlikeFor (table.map (·.pictureType)) st st') :
    (·.1) <$> p.trial factor st' table = (·.1) <$> p.trial factor st table := by
  have hlayout (curve : List δ) : p.layOutAll st'.buffer table curve = p.layOutAll st.buffer table curve := by
    simp only [layOutAll, h.buffer]
  simp only [trial_eq, h.sums, hlayout, map_eq_pure_bind, bind_assoc, pure_bind]
  -- What is granted only depends on the sums, so both trials write the same quantizers over their histories.
  refine Attempt.bind_congr_of_ok fun gs hgs => ?_
  have hlength := length_of_grants hgs
  have hhistory : (st'.behindGrants (table.map (·.pictureType)) gs).history =
      (st.behindGrants (table.map (·.pictureType)) gs).history :=
    History.overwrite_congr (by simp [hlength]) h.reference h.last_of_absent
  simp only [hhistory]

/-- A trial does not read the plan of its table. -/
theorem trial_replans (p : Policy σ) (factor : δ) (st : State δ) {table table' : List (Record σ)}
    (h : List.Forall₂ Record.Replans table table') : p.trial factor st table' = p.trial factor st table := by
  have hmap : table'.map unplanned = table.map unplanned := by
    induction h with
    | nil => rfl
    | cons hr _ ih =>
      rw [List.map_cons, List.map_cons, ih, hr]
      rfl
  rw [← trial_unplanned p factor st table', hmap, trial_unplanned]

/-- What a trial leaves as it is, and the reference that it ends with. -/
theorem trial_settles {p : Policy σ} {factor : δ} {st st' : State δ} {table : List (Record σ)} {t : Trial σ δ}
    (h : (p.trial factor st table).outcome = .ok (t, st')) :
    State.AlikeFor (table.map (·.pictureType)) (st.settled (table.map (·.pictureType))) st' := by
  have hbuffer := (trial_ok h).2.2
  rw [trial_eq] at h
  obtain ⟨gs, hgs, h⟩ := Attempt.bind_ok.1 h
  obtain ⟨l, -, h⟩ := Attempt.bind_ok.1 h
  cases h
  have hlength := length_of_grants hgs
  have hfst : ((table.map (·.pictureType)).zip (gs.map (·.quantizer))).map (·.1) = table.map (·.pictureType) :=
    List.map_fst_zip (by simp [hlength])
  refine ⟨rfl, hbuffer, ?_, fun t ht => ?_⟩
  · -- The walk ends at the front, so the last reference is the first picture there that is not a B picture.
    rw [limitBackwards_eq, History.reference_limitAll, List.map_reverse, hfst, History.lastReference,
      List.reverse_reverse]
    rfl
  · rw [limitBackwards_eq, History.last_limitAll_of_absent]
    · exact History.last_overwrite_of_absent (by rwa [hfst])
    · rwa [List.map_reverse, List.mem_reverse, hfst]

-- ---------------------------------------------------------------------------
-- Searches
-- ---------------------------------------------------------------------------

/-- The trials of a plan: the rate factor of each in units, and what it starts from. -/
def visits (p : Policy σ) (st : State δ) (table : List (Record σ)) : List (Nat × Carried σ δ) :=
  Search.visits (p.searchTrial (budget δ p.settings table.length))
    ⟨0, 0, (⟨table, 0.0⟩, table.foldl State.account st)⟩ Search.steps

theorem answers_eq_visits (p : Policy σ) (st : State δ) (table : List (Record σ)) :
    p.answers st table = (p.visits st table).filterMap fun v =>
      (p.searchTrial (budget δ p.settings table.length) v.1 v.2).outcome.toOption := by
  rw [answers, visits, Search.answers_eq_visits]

/-- Behind the first trial the state is settled, and the pictures are those of the table throughout. -/
theorem settled_of_visits (p : Policy σ) (st : State δ) (table : List (Record σ)) :
    ∀ v ∈ (p.visits st table).tail, List.Forall₂ Record.Replans table v.2.1.table ∧
      State.AlikeFor (table.map (·.pictureType))
        ((table.foldl State.account st).settled (table.map (·.pictureType))) v.2.2 := by
  unfold visits
  refine Search.forall_visits_tail (fun c : Carried σ δ => List.Forall₂ Record.Replans table c.1.table ∧
    State.AlikeFor (table.map (·.pictureType))
      ((table.foldl State.account st).settled (table.map (·.pictureType))) c.2) ?_ ?_ _
  · intro n o c h
    have htrial := (searchTrial_ok h).1
    exact ⟨(trial_ok htrial).1, trial_settles htrial⟩
  · intro n b o c hb h
    obtain ⟨hreplans, halike⟩ := hb
    have htrial := (searchTrial_ok h).1
    have hsettles := trial_settles htrial
    rw [Record.pictureType_of_replans hreplans] at hsettles
    exact ⟨Record.forall₂_replans_trans hreplans (trial_ok htrial).1, halike.settled.trans hsettles⟩

/-- What a trial of the search answers: whether it overshoots, and its table and total. -/
def verdict (p : Policy σ) (available units : Nat) (c : Carried σ δ) :
    Attempt (Event σ δ) (Fault σ δ) (Bool × Trial σ δ) :=
  (fun a => (a.1, a.2.1)) <$> p.searchTrial available units c

theorem verdict_congr (p : Policy σ) (available units : Nat) (c c' : Carried σ δ)
    (h : (·.1) <$> p.trial (factorOf units) c'.2 c'.1.table = (·.1) <$> p.trial (factorOf units) c.2 c.1.table) :
    p.verdict available units c' = p.verdict available units c := by
  have hverdict (c : Carried σ δ) : p.verdict available units c = (do
      let t ← (·.1) <$> p.trial (factorOf units) c.2 c.1.table
      Attempt.ofLogged (.note (.trial t.total available (factorOf units)))
      return (t.total > Scalar.ofNat available, t)) := by
    simp only [verdict, searchTrial, map_eq_pure_bind, bind_assoc, pure_bind]
  rw [hverdict, hverdict, h]

/-- The trials do not influence each other: one trial answers alike, events and faults included, from states that
    are alike for its pictures, whatever is planned in the table. So the answers of a plan are those of its
    trials, and every trial behind the first answers as it would at the start if only the reference were
    settled, which leaves its rate factor alone to decide. -/
theorem trials_independent (p : Policy σ) (table : List (Record σ)) :
    (∀ (factor : δ) (st st' : State δ) (table' : List (Record σ)),
      State.AlikeFor (table.map (·.pictureType)) st st' → List.Forall₂ Record.Replans table table' →
      (·.1) <$> p.trial factor st' table' = (·.1) <$> p.trial factor st table) ∧
    ∀ st : State δ,
      let available := budget δ p.settings table.length
      p.answers st table =
        (p.visits st table).filterMap (fun v => (p.searchTrial available v.1 v.2).outcome.toOption) ∧
      ∀ v ∈ (p.visits st table).tail,
        p.verdict available v.1 v.2 =
          p.verdict available v.1
            (⟨table, 0.0⟩, (table.foldl State.account st).settled (table.map (·.pictureType))) := by
  have htrial (factor : δ) (st st' : State δ) (table' : List (Record σ))
      (halike : State.AlikeFor (table.map (·.pictureType)) st st') (hreplans : List.Forall₂ Record.Replans table table') :
      (·.1) <$> p.trial factor st' table' = (·.1) <$> p.trial factor st table := by
    rw [p.trial_replans factor st' hreplans, p.trial_congr factor halike]
  refine ⟨htrial, fun st => ⟨p.answers_eq_visits st table, fun v hv => ?_⟩⟩
  obtain ⟨hreplans, halike⟩ := p.settled_of_visits st table v hv
  have hsame := htrial (factorOf v.1) _ _ _ halike hreplans
  exact p.verdict_congr _ v.1 (⟨table, 0.0⟩, (table.foldl State.account st).settled _) v.2 hsame

open Exact in
/-- A P and a B picture, with other quantizers, sums of grants and plans left behind from before. -/
theorem trials_independent_two_pictures :
    let settings : Settings ℚ := { Settings.standard with equation := some "1", blur := 0.0 }
    let table : List (Record ℚ) :=
      [{ quantizer := 236, plannedQuantizer := 0, predictedBits := 20000 },
       { pictureType := .bidirectional, quantizer := 236, plannedQuantizer := 0, predictedBits := 10000 }]
    let table' : List (Record ℚ) := table.map fun r => { r with plannedQuantizer := 700, plannedBits := 9 }
    let st : State ℚ := .initial settings
    let st' : State ℚ :=
      { st with history := { st.history with last := st.history.last.set .predicted 1000 }, granted := 3 }
    ∃ (p : Policy ℚ) (t : Trial ℚ ℚ) (st₁ : State ℚ) (v : Nat × Carried ℚ ℚ),
      (p.trial 2 st table : Attempt (Event ℚ ℚ) (Fault ℚ ℚ) _).outcome = .ok (t, st₁) ∧
      (·.1) <$> p.trial 2 st' table' = (·.1) <$> p.trial 2 st table ∧
      v ∈ (p.visits st table).tail ∧
      p.verdict 16000 v.1 v.2 =
        p.verdict 16000 v.1
          (⟨table, 0.0⟩, (table.foldl State.account st).settled [.predicted, .bidirectional]) := by
  intro settings table table' st st'
  have h : (ofSettings settings : Attempt (Event ℚ ℚ) (Fault ℚ ℚ) _).outcome.toOption.any (fun p =>
      (p.trial 2 st table : Attempt (Event ℚ ℚ) (Fault ℚ ℚ) _).outcome.toOption.any fun _ =>
        budget ℚ p.settings table.length == 16000 && (p.visits st table).tail.length == 39) = true := by
    decide +kernel
  obtain ⟨p, -, h⟩ := Attempt.exists_ok_of_any h
  obtain ⟨⟨t, st₁⟩, htrial, h⟩ := Attempt.exists_ok_of_any h
  simp only [Bool.and_eq_true, beq_iff_eq] at h
  obtain ⟨hbudget, hlength⟩ := h
  obtain ⟨v, hv⟩ := List.exists_mem_of_length_pos (l := (p.visits st table).tail) (by omega)
  have halike : State.AlikeFor (table.map (·.pictureType)) st st' := by
    refine ⟨rfl, rfl, rfl, fun u hu => PerType.get_set_of_ne _ _ ?_⟩
    rintro rfl
    exact hu (by simp [table])
  have hreplans : List.Forall₂ Record.Replans table table' := .cons rfl (.cons rfl .nil)
  obtain ⟨hstates, hsearch⟩ := trials_independent (δ := ℚ) p table
  have hverdict := (hsearch st).2 v hv
  rw [hbudget] at hverdict
  exact ⟨p, t, st₁, v, htrial, hstates 2 st st' table' halike hreplans, hv, hverdict⟩

end Policy
end RateControl
