-- SUMMARY: A second pass that is set up from the text of its statistics is the one that is set up from the statistics, unless there are none.
import RateControl.Proofs.Plan.Faults
import RateControl.Proofs.Plan.Unplanned
import RateControl.Proofs.Session.Run
import RateControl.Proofs.Statistics.Reread
import RateControl.Proofs.Statistics.Table

/-! # Set-up from text

Statistics reach a second pass as records or as text. The text does not tell what was planned for a picture
before, and nothing that is planned reads it, so both ways lead to the same session or the same fault.

They part where there are no statistics. An empty text is refused when it is read. An empty list of records is
refused only where its table would be empty, which it is not if pictures are kept free for B pictures behind
the last line, and only after the equation and the directives were read. -/

namespace RateControl

variable {σ δ : Type} [Scalar σ] [Scalar δ] [Precision σ δ]

-- ---------------------------------------------------------------------------
-- Faults
-- ---------------------------------------------------------------------------

namespace Policy

theorem faults_ofSettings (settings : Settings σ) :
    Attempt.Faults (· ≠ .emptyStatistics) (ofSettings settings : Attempt (Event σ δ) (Fault σ δ) (Policy σ)) := by
  have hequation : Attempt.Faults (· ≠ .emptyStatistics)
      (Equation.parse settings.equationText : Attempt (Event σ δ) (Fault σ δ) _) := by
    unfold Equation.parse
    split
    · exact Attempt.faults_throw nofun
    · refine Attempt.faults_bind (Attempt.faults_ofLogged _) fun value => ?_
      split
      · exact Attempt.faults_throw nofun
      · nofun
  have hdirectives : Attempt.Faults (· ≠ .emptyStatistics)
      (MonadExcept.ofExcept (readDirectives settings) : Attempt (Event σ δ) (Fault σ δ) _) := by
    intro e h
    rw [Attempt.outcome_ofExcept, readDirectives] at h
    split at h
    · cases h
    · split at h
      · cases h
      · cases h
        nofun
  have hread := Attempt.faults_bind hequation fun equation => Attempt.faults_bind hdirectives fun directives =>
    (nofun : Attempt.Faults _ (pure (⟨settings, equation, directives⟩ : Policy σ)))
  intro e h
  rw [ofSettings, Attempt.outcome_tryCatch] at h
  generalize hx : Attempt.outcome _ = x at h
  cases x with
  | ok policy => cases h
  | error e' =>
    cases h
    exact hread _ hx

/-- No plan finds that statistics are missing. -/
theorem faults_plan_ne_empty (p : Policy σ) (st : State δ) (table : List (Record σ)) :
    Attempt.Faults (· ≠ .emptyStatistics) (p.plan st table) := by
  rintro _ h rfl
  obtain (h | h | ⟨_, _, h⟩) | ⟨_, _, h⟩ := p.faults_plan st table _ h <;> cases h

end Policy

-- ---------------------------------------------------------------------------
-- Records as a log
-- ---------------------------------------------------------------------------

namespace Log

omit [Scalar σ] in
theorem mem_ofRecords {records : List (Record σ)} {p : Nat × Record σ} (h : p ∈ (ofRecords records).lines) :
    p.1 < records.length ∧ p.2 ∈ records := by
  obtain ⟨⟨r, n⟩, hmem, rfl⟩ := List.mem_map.1 h
  obtain ⟨hn, hr⟩ := List.getElem?_eq_some_iff.1 (List.mem_zipIdx_iff_getElem?.1 hmem)
  dsimp only at hn hr ⊢
  rw [← hr]
  exact ⟨hn, List.getElem_mem hn⟩

omit [Scalar σ] in
theorem length_ofRecords (records : List (Record σ)) : (ofRecords records).lines.length = records.length := by
  rw [ofRecords, List.length_map, List.length_zipIdx]

omit [Scalar σ] in
theorem lines_ofRecords_append (before : List (Record σ)) (r : Record σ) (after : List (Record σ)) :
    ∃ rest, (ofRecords (before ++ r :: after)).lines =
      (ofRecords before).lines ++ (before.length, r) :: rest := by
  simp [ofRecords, List.zipIdx_append]

end Log

-- ---------------------------------------------------------------------------
-- Set-up
-- ---------------------------------------------------------------------------

namespace Session

variable [Precision Float32 δ]

/-- A session is set up alike from statistics with a plan and from the same statistics without one. -/
theorem create_unplanned (settings : Settings Float32) (log : Log Float32) :
    (create settings (some log.unplanned) : Attempt (Event Float32 δ) _ (Session Float32 δ)) =
      create settings (some log) := by
  simp only [create, Option.isSome_some, Log.table_unplanned]
  cases (log.table settings.maxBFrames settings.mbCount : Except (Fault Float32 δ) _) with
  | error e => rfl
  | ok table =>
    have hmap : (·.map Line.unplanned) <$> (.ok table : Except (Fault Float32 δ) _) =
      .ok (table.map Line.unplanned) := rfl
    simp only [hmap, Attempt.ofExcept_ok, pure_bind, Policy.plan_unplanned]

omit [Precision Float32 δ] in
/-- An empty log is refused as empty just when everything that is read before is in order and no picture is
    kept free behind the last line. -/
theorem create_nil {settings : Settings σ} (hvalid : settings.violation? true = none) :
    (create settings (some ⟨[]⟩) : Attempt (Event σ δ) _ (Session σ δ)).outcome = .error .emptyStatistics ↔
      (∃ p, (Policy.ofSettings settings : Attempt (Event σ δ) (Fault σ δ) _).outcome = .ok p) ∧
        settings.maxBFrames = 0 := by
  simp only [create, Option.isSome_some, hvalid, Log.table_nil]
  by_cases hb : settings.maxBFrames = 0
  · rw [if_pos hb, Attempt.outcome_bind]
    cases hp : (Policy.ofSettings settings : Attempt (Event σ δ) (Fault σ δ) _).outcome with
    | ok p => exact iff_of_true rfl ⟨⟨p, rfl⟩, hb⟩
    | error e =>
      refine iff_of_false (fun h => ?_) fun h => ?_
      · cases h
        exact Policy.faults_ofSettings settings _ hp rfl
      · obtain ⟨⟨p, hp⟩, -⟩ := h
        cases hp
  · rw [if_neg hb]
    refine iff_of_false (fun h => ?_) fun h => hb h.2
    refine Attempt.faults_bind (Policy.faults_ofSettings settings) (fun policy => ?_) _ h rfl
    rw [Attempt.ofExcept_ok, pure_bind]
    exact Attempt.faults_bind (policy.faults_plan_ne_empty _ _) fun _ => Attempt.faults_pure _

/-- What is set up from a text is what is set up from the log that is read from it. -/
theorem createFromText_of_read {settings : Settings Float32} {text : String} {log : Log Float32}
    (h : Log.read text = (.ok log : Except (Fault Float32 δ) _)) :
    (createFromText settings text : Attempt (Event Float32 δ) _ (Session Float32 δ)) =
      create settings (some log) := by
  rw [createFromText, h, Attempt.ofExcept_ok, pure_bind]

theorem createFromText_error {settings : Settings Float32} {text : String} {e : Fault Float32 δ}
    (h : (Log.read text : Except _ (Log Float32)) = .error e) :
    (createFromText settings text : Attempt (Event Float32 δ) _ (Session Float32 δ)).outcome = .error e := by
  rw [createFromText, h]
  rfl

/-- A second pass that is set up from the text of records is the one that is set up from the records: all
    events, the fault or the session are the same, whatever was planned before. It takes a record, and an index
    that the reader has room for. Without any record the text is refused as empty, but the records only if
    equation and directives are in order and no picture is kept free. -/
theorem createFromText_eq (settings : Settings Float32) {records : List (Record Float32)}
    (hq : ∀ r ∈ records, Scalar.isNaN r.quantizer = false ∧ r.quantizer ≠ -1.0 / 0.0) :
    let log : Log Float32 := .ofRecords records
    let fromText : Attempt (Event Float32 δ) _ (Session Float32 δ) := createFromText settings log.text
    let fromRecords : Attempt (Event Float32 δ) _ (Session Float32 δ) := create settings (some log)
    (records ≠ [] → records.length ≤ 2 ^ 63 → fromText = fromRecords) ∧
    (2 ^ 63 < records.length → fromText.outcome = .error (.corruptedStatistics (2 ^ 63))) ∧
    (records = [] →
      fromText.outcome = .error .emptyStatistics ∧
      (settings.violation? true = none →
        (fromRecords.outcome = .error .emptyStatistics ↔
          (∃ p, (Policy.ofSettings settings : Attempt (Event Float32 δ) (Fault Float32 δ) _).outcome = .ok p) ∧
            settings.maxBFrames = 0))) := by
  intro log fromText fromRecords
  have hnan : ∀ p ∈ log.lines, Scalar.isNaN p.2.quantizer = false :=
    fun p hp => (hq _ (Log.mem_ofRecords hp).2).1
  have hreadable (rs : List (Record Float32)) (hrs : ∀ r ∈ rs, r ∈ records) (hlength : rs.length ≤ 2 ^ 63) :
      ∀ p ∈ (Log.ofRecords rs).lines, Log.Readable p := fun p hp =>
    ⟨(Log.mem_ofRecords hp).1.trans_le hlength, (hq _ (hrs _ (Log.mem_ofRecords hp).2)).2⟩
  refine ⟨fun hne hlength => ?_, fun hlength => ?_, ?_⟩
  · have hlines : log.lines ≠ [] := List.ne_nil_of_length_pos <| by
      rw [Log.length_ofRecords]
      exact List.length_pos_of_ne_nil hne
    have hread := Log.read_of_readable (δ := δ) hlines hnan (hreadable records (fun _ => id) hlength)
    exact (createFromText_of_read hread).trans (create_unplanned settings log)
  · obtain ⟨before, r, after, hrecords, hbefore⟩ : ∃ before r after,
        records = before ++ r :: after ∧ before.length = 2 ^ 63 :=
      ⟨records.take (2 ^ 63), records[2 ^ 63], records.drop (2 ^ 63 + 1),
        by rw [← List.drop_eq_getElem_cons, List.take_append_drop], List.length_take_of_le hlength.le⟩
    obtain ⟨rest, hlines⟩ := Log.lines_ofRecords_append before r after
    rw [← hrecords] at hlines
    have hfits := hreadable before (by simp +contextual [hrecords]) hbefore.le
    have hnot : ¬ Log.Readable (before.length, r) := fun h => absurd h.1 (by omega)
    have hread := Log.read_of_not_readable (δ := δ) hlines hnan hfits (by dsimp only; omega) hnot
    rw [Log.length_ofRecords, hbefore] at hread
    exact createFromText_error hread
  · rintro rfl
    exact ⟨createFromText_error rfl, create_nil⟩

/-- Records with leftovers of a plan, which the text does not have. -/
theorem createFromText_eq_two_records :
    let records : List (Record Float32) :=
      [{ quantizer := 236, plannedQuantizer := 354, plannedBits := 1000, predictedBits := 20000 },
       { quantizer := 1.0 / 0.0, plannedQuantizer := 0.0 / 0.0 }]
    let log : Log Float32 := .ofRecords records
    (∀ r ∈ records, Scalar.isNaN r.quantizer = false ∧ r.quantizer ≠ -1.0 / 0.0) ∧
      (createFromText .standard log.text : Attempt (Event Float32 Float) _ (Session Float32 Float)) =
        create .standard (some log) := by
  intro records log
  have hlt : ∀ r ∈ records, Scalar.isNaN r.quantizer = false ∧ (-1.0 / 0.0 : Float32) < r.quantizer := by
    decide +kernel
  have hq : ∀ r ∈ records, Scalar.isNaN r.quantizer = false ∧ r.quantizer ≠ -1.0 / 0.0 :=
    fun r hr => ⟨(hlt r hr).1, Line.ne_neg_infinity (hlt r hr).2⟩
  exact ⟨hq, (createFromText_eq .standard hq).1 (by simp [records]) (by simp [records])⟩

/-- With room for one B picture an empty list of records makes a session, whose table has one entry. -/
theorem create_nil_of_maxBFrames :
    let settings : Settings Float32 :=
      { Settings.standard with equation := some "1", blur := 0.0, maxBFrames := 1 }
    let log : Log Float32 := .ofRecords []
    settings.violation? true = none ∧
      (createFromText settings log.text : Attempt (Event Float32 Float) _ (Session Float32 Float)).outcome =
        .error .emptyStatistics ∧
      ∃ s : Session Float32 Float, (create settings (some log)).outcome = .ok s ∧ s.table.length = 1 := by
  intro settings log
  have hcreate : (create settings (some log) : Attempt (Event Float32 Float) _ _).outcome.toOption.any
      (fun s => s.table.length == 1) = true := by decide +kernel
  obtain ⟨s, hs, hlength⟩ := Attempt.exists_ok_of_any hcreate
  have hvalid : (settings.violation? true).isNone = true := by decide +kernel
  exact ⟨Option.isNone_iff_eq_none.1 hvalid, createFromText_error rfl, s, hs, eq_of_beq hlength⟩

end Session
end RateControl
