-- SUMMARY: The stages of a trial, and the table that comes out of them.
import RateControl.Proofs.Attempt
import RateControl.Proofs.Plan.Layout

/-! # Trials

Grants, limits and blur each make a curve of one quantizer per picture, and the layout turns the last of
them into a table. -/

namespace RateControl

variable {σ δ : Type}

theorem map_zipIdx_fst {α β : Type} (f : α → β) (l : List α) :
    l.zipIdx.map (fun a => f a.1) = l.map f := by
  calc
    l.zipIdx.map (fun a => f a.1) = (l.zipIdx.map Prod.fst).map f := List.map_map.symm
    _ = l.map f := by rw [List.zipIdx_map_fst]

/-- The history in which the quantizers of a curve are the last ones of their types. -/
def History.overwrite (h : History δ) (curve : Blur.Curve δ) : History δ :=
  { h with last := curve.foldl (fun last a => last.set a.1 a.2) h.last }

/-- What holds of all values of a curve holds of the last quantizers of its types, and of those where it held
    before. -/
theorem History.overwrite_induction (P : δ → Prop) {h : History δ} {curve : Blur.Curve δ}
    (hcurve : ∀ a ∈ curve, P a.2) {t : PictureType} (ht : t ∈ curve.map (·.1) ∨ P (h.last.get t)) :
    P ((h.overwrite curve).last.get t) := by
  induction curve generalizing h with
  | nil => exact ht.resolve_left (by simp)
  | cons a rest ih =>
    obtain ⟨ha, hrest⟩ := List.forall_mem_cons.1 hcurve
    refine @ih { h with last := h.last.set a.1 a.2 } hrest ?_
    by_cases hta : t = a.1
    · subst hta
      exact .inr (by simpa using ha)
    · rw [List.map_cons, List.mem_cons] at ht
      refine ht.imp (fun ht => ht.resolve_left hta) fun ht => ?_
      rwa [PerType.get_set_of_ne _ _ hta]

variable [Scalar σ] [Scalar δ] [Precision σ δ]

/-- The state behind grants for pictures of the given types. -/
def State.behindGrants (st : State δ) (types : List PictureType) (gs : List (Grant δ)) : State δ :=
  { st with
    history := st.history.overwrite (types.zip (gs.map (·.quantizer)))
    granted := gs.foldl (fun sum g => sum + g.value) st.granted }

namespace Policy

/-- The grants for the pictures of a table, all under the same sums. -/
def grants (p : Policy σ) (sums : PerType (Sums δ)) (factor : δ) (table : List (Record σ)) :
    Attempt (Event σ δ) (Fault σ δ) (List (Grant δ)) :=
  table.zipIdx.mapM fun a => p.grant sums a.1 factor a.2

theorem length_of_grants {p : Policy σ} {sums : PerType (Sums δ)} {factor : δ} {table : List (Record σ)}
    {gs : List (Grant δ)} (h : (p.grants sums factor table).outcome = .ok gs) : gs.length = table.length := by
  have hlength := (Attempt.outcome_mapM_ok.1 h).length_eq
  rwa [List.length_zipIdx, eq_comm] at hlength

/-- A grant is put in front of the quantizers so far, and becomes the last one of its type. -/
def noteGrant (c : List δ × State δ) (a : Record σ × Nat) (g : Grant δ) : List δ × State δ :=
  (g.quantizer :: c.1,
    { c.2 with
      history := { c.2.history with last := c.2.history.last.set a.1.pictureType g.quantizer }
      granted := c.2.granted + g.value })

omit [Scalar σ] [Precision σ δ] in
theorem foldl_noteGrant (qs : List δ) (st : State δ) {items : List (Record σ × Nat)} {gs : List (Grant δ)}
    (h : items.length = gs.length) :
    (items.zip gs).foldl (fun c ag => noteGrant c ag.1 ag.2) (qs, st) =
      ((gs.map (·.quantizer)).reverse ++ qs, st.behindGrants (items.map (·.1.pictureType)) gs) := by
  induction gs generalizing qs st items with
  | nil =>
    rw [List.length_nil, List.length_eq_zero_iff] at h
    subst h
    rfl
  | cons g rest ih =>
    cases items with
    | nil => cases h
    | cons a items =>
      rw [List.zip_cons_cons, List.foldl_cons, noteGrant, ih _ _ (by simpa using h)]
      simp [State.behindGrants, History.overwrite]

/-- The grants of a trial read the sums of the state only, and leave their quantizers behind as the last ones. -/
theorem grantAll_eq (p : Policy σ) (factor : δ) (st : State δ) (table : List (Record σ)) :
    p.grantAll factor st table =
      (fun gs => (gs.map (·.quantizer), st.behindGrants (table.map (·.pictureType)) gs)) <$>
        p.grants st.sums factor table := by
  have hstart : p.grantAll factor st table =
      (fun c => (c.1.reverse, c.2)) <$>
        Attempt.fold (fun c a => noteGrant c a <$> p.grant c.2.sums a.1 factor a.2) ([], st) table.zipIdx := by
    simp only [map_eq_pure_bind]
    rfl
  -- No grant changes the sums, so all are attempted under those of the start.
  have hfold : Attempt.fold (fun c a => noteGrant c a <$> p.grant c.2.sums a.1 factor a.2) ([], st) table.zipIdx =
      (fun gs => (table.zipIdx.zip gs).foldl (fun c ag => noteGrant c ag.1 ag.2) ([], st)) <$>
        p.grants st.sums factor table := by
    have hkeep (c : List δ × State δ) (a : Record σ × Nat) (g : Grant δ) (hc : c.2.sums = st.sums) :
        (noteGrant c a g).2.sums = st.sums := hc
    refine Attempt.fold_eq_mapM (fun c => c.2.sums = st.sums) (fun c a hc => ?_) hkeep rfl table.zipIdx
    simp only [hc]
  rw [hstart, hfold]
  simp only [map_eq_pure_bind, bind_assoc, pure_bind]
  refine Attempt.bind_congr_of_ok fun gs hgs => ?_
  rw [foldl_noteGrant [] st (by rw [List.length_zipIdx, length_of_grants hgs]), map_zipIdx_fst]
  simp

theorem grantAll_of_grant {p : Policy σ} {factor : δ} {st : State δ} {table : List (Record σ)}
    {g : Record σ × Nat → Grant δ}
    (hg : ∀ a, (p.grant st.sums a.1 factor a.2 : Attempt (Event σ δ) (Fault σ δ) _).outcome = .ok (g a)) :
    (p.grantAll factor st table).outcome =
      .ok ((table.zipIdx.map g).map (·.quantizer),
        st.behindGrants (table.map (·.pictureType)) (table.zipIdx.map g)) := by
  have hgrants : (p.grants st.sums factor table : Attempt (Event σ δ) (Fault σ δ) _).outcome =
      .ok (table.zipIdx.map g) := by
    rw [grants, Attempt.outcome_mapM_ok, List.forall₂_map_right_iff, List.forall₂_same]
    exact fun a _ => hg a
  rw [grantAll_eq, map_eq_pure_bind]
  exact Attempt.bind_ok.2 ⟨_, hgrants, rfl⟩

theorem grantAll_ok {p : Policy σ} {factor : δ} {st st' : State δ} {table : List (Record σ)}
    {qs : List δ} (h : (p.grantAll factor st table).outcome = .ok (qs, st')) :
    List.Forall₂ (fun a q => ∃ g, (p.grant st.sums a.1 factor a.2 :
      Attempt (Event σ δ) (Fault σ δ) _).outcome = .ok g ∧ q = g.quantizer) table.zipIdx qs ∧
    st'.history = st.history.overwrite ((table.map (·.pictureType)).zip qs) ∧
    st'.buffer = st.buffer := by
  rw [grantAll_eq, map_eq_pure_bind] at h
  obtain ⟨gs, hgs, h⟩ := Attempt.bind_ok.1 h
  cases h
  refine ⟨?_, rfl, rfl⟩
  rw [List.forall₂_map_right_iff]
  exact (Attempt.outcome_mapM_ok.1 hgs).imp fun a g hg => ⟨g, hg, rfl⟩

theorem length_limitBackwards (p : Policy σ) (h : History δ) (curve : Blur.Curve δ) :
    (p.limitBackwards h curve).1.length = curve.length := by
  induction curve with
  | nil => rfl
  | cons a rest ih =>
    rw [limitBackwards, List.foldr_cons, List.length_cons]
    exact congrArg Nat.succ ih

omit [Scalar σ] [Precision σ δ] in
theorem length_smooth (reach : Nat) (blur : δ) (curve : Blur.Curve δ) :
    (Blur.smooth reach blur curve).length = curve.length := by
  rw [Blur.smooth, List.length_map, List.length_zipIdx]

/-- The curve that a trial lays out for the granted quantizers. -/
def curveFor (p : Policy σ) (h : History δ) (types : List PictureType) (qs : List δ) : List δ :=
  let blur := p.settings.blur
  Blur.smooth (Blur.reach blur) (widen blur) (types.zip (p.limitBackwards h (types.zip qs)).1)

/-- A trial lays its curve out for the buffer of the state. -/
theorem outcome_trial (p : Policy σ) (factor : δ) (st : State δ) (table : List (Record σ)) :
    (p.trial factor st table).outcome =
      (p.grantAll factor st table).outcome.map fun (qs, st') =>
        let types := table.map (·.pictureType)
        let l := (p.layOutAll st'.buffer table (p.curveFor st'.history types qs)).value
        (⟨l.records.reverse, l.total⟩,
          { st' with
            history := (p.limitBackwards st'.history (types.zip qs)).2
            buffer := l.buffer }) := by
  rw [trial, Attempt.outcome_bind]
  cases (p.grantAll factor st table).outcome <;> rfl

/-- What a trial reads of its state: the sums, the history under the grants, and the buffer. -/
theorem trial_eq (p : Policy σ) (factor : δ) (st : State δ) (table : List (Record σ)) :
    p.trial factor st table = (do
      let gs ← p.grants st.sums factor table
      let types := table.map (·.pictureType)
      let qs := gs.map (·.quantizer)
      let st' := st.behindGrants types gs
      let l ← Attempt.ofLogged (p.layOutAll st.buffer table (p.curveFor st'.history types qs))
      return (⟨l.records.reverse, l.total⟩,
        { st' with
          history := (p.limitBackwards st'.history (types.zip qs)).2
          buffer := l.buffer })) := by
  rw [trial]
  simp only [grantAll_eq, map_eq_pure_bind, bind_assoc, pure_bind]
  rfl

/-- The table of a trial replans the table before, agrees with its total, and only the content of the
    buffer is another one afterwards. -/
theorem trial_ok {p : Policy σ} {factor : δ} {st st' : State δ} {table : List (Record σ)}
    {t : Trial σ δ} (h : (p.trial factor st table).outcome = .ok (t, st')) :
    List.Forall₂ Record.Replans table t.table ∧ Agree st.buffer.halfFull 0.0 t.table t.total ∧
      st'.buffer.halfFull = st.buffer.halfFull := by
  rw [outcome_trial] at h
  cases hgrants : (p.grantAll factor st table).outcome with
  | error e =>
    rw [hgrants] at h
    cases h
  | ok a =>
    obtain ⟨qs, st₁⟩ := a
    obtain ⟨hqs, -, hbuffer⟩ := grantAll_ok hgrants
    rw [hgrants] at h
    injection h with h
    obtain ⟨rfl, rfl⟩ := Prod.mk.inj h
    have hlength := hqs.length_eq
    rw [List.length_zipIdx] at hlength
    have hcurve : table.length ≤ (p.curveFor st₁.history (table.map (·.pictureType)) qs).length := by
      simp [curveFor, length_smooth, length_limitBackwards, hlength]
    generalize p.curveFor st₁.history (table.map (·.pictureType)) qs = curve at hcurve ⊢
    obtain ⟨records, hrecords, hreplans, hagree, hafter⟩ :=
      p.foldl_layOut ⟨[], 0.0, st.buffer.halfFull⟩ (table.zip curve).zipIdx
    simp only [layOutAll, Logged.value_fold, hbuffer]
    rw [List.append_nil] at hrecords
    rw [hrecords, List.reverse_reverse]
    refine ⟨?_, hagree, hafter⟩
    have hmap := List.forall₂_map_left_iff.2 hreplans
    rwa [map_zipIdx_fst, List.map_fst_zip hcurve] at hmap

end Policy
end RateControl
