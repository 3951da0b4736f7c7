-- SUMMARY: The table of a second pass is its log, planned or not, and the order of the lines does not matter.
import RateControl.Proofs.Exact
import RateControl.Proofs.Session.Independence

/-! # Set-up from a log

The log fixes everything in the table of a second pass but the plan. Planning goes over the table forty times
and changes nothing else in it, and no step changes it afterwards. So two logs with one table set up the same
session. -/

namespace RateControl

variable {σ δ : Type}

/-- Planning keeps the size codes of motion vectors. -/
theorem Record.map_codes_of_replans {t t' : List (Record σ)} (h : List.Forall₂ Record.Replans t t') :
    t'.map (fun r => (r.forwardCode, r.backwardCode)) = t.map fun r => (r.forwardCode, r.backwardCode) := by
  induction h with
  | nil => rfl
  | cons hr _ ih =>
    rw [List.map_cons, List.map_cons, ih, hr]

namespace Session

variable [Scalar σ] [Scalar δ] [Precision σ δ]

-- ---------------------------------------------------------------------------
-- Tables
-- ---------------------------------------------------------------------------

/-- A log has a session only if it has a table, and then the session has that table with a plan. -/
theorem create_table {settings : Settings σ} {log : Log σ} {s : Session σ δ}
    (h : (create settings (some log)).outcome = .ok s) :
    ∃ t, (log.table settings.maxBFrames settings.mbCount : Except (Fault σ δ) _) = .ok t ∧
      List.Forall₂ Record.Replans t s.table := by
  obtain ⟨-, t, htable, hplan⟩ := create_log_ok h
  exact ⟨t, htable, (Policy.plan_replans hplan).1⟩

omit [Scalar σ] [Scalar δ] [Precision σ δ] in
/-- A session with a planned table tells the codes of the table. -/
theorem motionCodes?_of_replans {s : Session σ δ} {t : List (Record σ)}
    (h : List.Forall₂ Record.Replans t s.table) (n : Nat) :
    s.motionCodes? n = t[n]?.map fun r => (r.forwardCode, r.backwardCode) := by
  calc
    s.motionCodes? n = (s.table.map fun r => (r.forwardCode, r.backwardCode))[n]? := List.getElem?_map.symm
    _ = (t.map fun r => (r.forwardCode, r.backwardCode))[n]? := by rw [Record.map_codes_of_replans h]
    _ = t[n]?.map fun r => (r.forwardCode, r.backwardCode) := List.getElem?_map

/-- Of a log, set-up reads nothing but the table. -/
theorem create_congr_table {settings : Settings σ} {log log' : Log σ}
    (h : (log'.table settings.maxBFrames settings.mbCount : Except (Fault σ δ) _) =
      log.table settings.maxBFrames settings.mbCount) :
    (create settings (some log') : Attempt (Event σ δ) _ (Session σ δ)) = create settings (some log) := by
  simp only [create, Option.isSome_some, h]

/-- A log without a table has no session: its fault is that of the set-up where everything that is read before
    is in order. -/
theorem create_of_table_error {settings : Settings σ} {log : Log σ} {p : Policy σ} {e : Fault σ δ}
    (hvalid : settings.violation? true = none)
    (hpolicy : (Policy.ofSettings settings : Attempt (Event σ δ) (Fault σ δ) _).outcome = .ok p)
    (h : (log.table settings.maxBFrames settings.mbCount : Except (Fault σ δ) _) = .error e) :
    (create settings (some log) : Attempt (Event σ δ) _ (Session σ δ)).outcome = .error e := by
  simp only [create, Option.isSome_some, hvalid, h]
  rw [Attempt.outcome_bind, hpolicy]
  rfl

-- ---------------------------------------------------------------------------
-- Logs
-- ---------------------------------------------------------------------------

/-- The table of a second pass is exactly its log. A line outside is a fault that names the first such line;
    otherwise each index has the record of its last line or a skipped picture. A session that is set up has this
    table but for the plan, whatever steps it has taken since, and tells the codes of its records. Where no index
    occurs twice, the lines can stand in any order: all events, the fault or the session are the same. -/
theorem create_of_log (settings : Settings σ) {log : Log σ} (hlines : log.lines ≠ []) :
    let entries := log.lines.length + settings.maxBFrames
    let table : Except (Fault σ δ) (List (Record σ)) := log.table settings.maxBFrames settings.mbCount
    let session : Attempt (Event σ δ) _ (Session σ δ) := create settings (some log)
    (∀ before n r after, log.lines = before ++ (n, r) :: after → (∀ p ∈ before, p.1 < entries) → entries ≤ n →
      table = .error (.pictureOutOfRange n entries) ∧
      (settings.violation? true = none →
        (∃ p, (Policy.ofSettings settings : Attempt (Event σ δ) (Fault σ δ) _).outcome = .ok p) →
        session.outcome = .error (.pictureOutOfRange n entries))) ∧
    ((∀ p ∈ log.lines, p.1 < entries) → ∃ t, table = .ok t ∧ t.length = entries ∧
      (∀ before n r after, log.lines = before ++ (n, r) :: after → (∀ p ∈ after, p.1 ≠ n) → t[n]? = some r) ∧
      ∀ n < entries, (∀ p ∈ log.lines, p.1 ≠ n) → t[n]? = some (.skipped settings.mbCount)) ∧
    (∀ s, session.outcome = .ok s → ∃ t, table = .ok t ∧ ∀ steps, let s' := (s.run steps).2
      List.Forall₂ Record.Replans t s'.table ∧ s'.isSecondPass = true ∧
      (∀ n, s'.motionCodes? n = t[n]?.map fun r => (r.forwardCode, r.backwardCode)) ∧
      ∀ n, (s'.motionCodes? n).isSome ↔ n < entries) ∧
    ((∀ p ∈ log.lines, p.1 < entries) → (log.lines.map (·.1)).Nodup →
      ∀ lines, lines.Perm log.lines → create settings (some ⟨lines⟩) = session) := by
  intro entries table session
  refine ⟨fun before n r after hlog hbefore hn => ?_, fun hinside => ?_, fun s hs => ?_,
    fun hinside hnodup lines hperm => ?_⟩
  · have htable : table = .error (.pictureOutOfRange n entries) :=
      Log.table_of_outlier settings.mbCount hlog hbefore hn
    exact ⟨htable, fun hvalid ⟨p, hp⟩ => create_of_table_error hvalid hp htable⟩
  · have htable : table = .ok _ := Log.table_of_inside settings.mbCount hlines hinside
    refine ⟨_, htable, (Log.length_table htable).1, fun before n r after hlog hafter => ?_, fun n hn habsent => ?_⟩
    · have hn : n < entries := hinside (n, r) (by simp [hlog])
      have hroom : n < (List.replicate entries (Record.skipped settings.mbCount : Record σ)).length := by
        rwa [List.length_replicate]
      have hplace := Log.getElem?_place_last hroom before r hafter
      rwa [← hlog] at hplace
    · rw [Log.getElem?_place_of_absent _ habsent]
      exact List.getElem?_replicate_of_lt hn
  · obtain ⟨t, htable, hreplans⟩ := create_table hs
    refine ⟨t, htable, fun steps => ?_⟩
    have hfixed : (s.run steps).2.table = s.table := (s.run_fixed steps).2
    have hsecond : s.isSecondPass = true := (create_buffer hs).2
    have hreplans' : List.Forall₂ Record.Replans t (s.run steps).2.table := by rwa [hfixed]
    have hlength : t.length = entries := (Log.length_table htable).1
    refine ⟨hreplans', by rwa [isSecondPass, hfixed], motionCodes?_of_replans hreplans', fun n => ?_⟩
    rw [motionCodes?_of_replans hreplans', Option.isSome_map, ← hlength, isSome_getElem?]
  · exact create_congr_table (Log.table_perm settings.mbCount hlines hinside hnodup hperm)

open scoped Exact in
/-- The lines of two pictures in a wrong order, with none for the first of three; and a line outside. -/
theorem create_of_log_two_lines :
    let settings : Settings ℚ :=
      { Settings.standard with equation := some "1", blur := 0.0, maxBFrames := 1 }
    let r (bits : Int32) : Record ℚ :=
      { quantizer := 236, plannedQuantizer := 0, predictedBits := bits, forwardCode := 3 }
    let log : Log ℚ := ⟨[(2, r 1000), (1, r 2000)]⟩
    let stray : Log ℚ := ⟨[(0, r 1000), (3, r 2000)]⟩
    (∃ s : Session ℚ ℚ, (create settings (some log)).outcome = .ok s ∧ s.isSecondPass = true ∧
      s.motionCodes? 0 = some (0, 0) ∧ s.motionCodes? 2 = some (3, 0) ∧ s.motionCodes? 3 = none) ∧
    (create settings (some ⟨[(1, r 2000), (2, r 1000)]⟩) : Attempt (Event ℚ ℚ) _ (Session ℚ ℚ)) =
      create settings (some log) ∧
    (create settings (some stray) : Attempt (Event ℚ ℚ) _ (Session ℚ ℚ)).outcome =
      .error (.pictureOutOfRange 3 3) := by
  intro settings r log stray
  have hinside : ∀ p ∈ log.lines, p.1 < 3 := by simp [log]
  obtain ⟨-, htable, hsession, hperm⟩ := create_of_log (δ := ℚ) settings (show log.lines ≠ [] by simp [log])
  refine ⟨?_, hperm hinside (by simp [log]) _ (List.Perm.swap _ _ _), ?_⟩
  · obtain ⟨t, ht, -, hlast, hskipped⟩ := htable hinside
    have hok : (create settings (some log) : Attempt (Event ℚ ℚ) _ _).outcome.toOption.any
        (fun _ => true) = true := by decide +kernel
    obtain ⟨s, hs, -⟩ := Attempt.exists_ok_of_any hok
    obtain ⟨t', ht', hrun⟩ := hsession s hs
    obtain rfl : t = t' := Except.ok.inj (ht.symm.trans ht')
    obtain ⟨-, hsecond, hcodes, hsome⟩ := hrun []
    refine ⟨s, hs, hsecond, (hcodes 0).trans ?_, (hcodes 2).trans ?_, ?_⟩
    · rw [hskipped 0 (by decide) (by simp [log])]
      rfl
    · rw [hlast [] 2 (r 1000) [(1, r 2000)] rfl (by simp)]
      rfl
    · exact Option.not_isSome_iff_eq_none.1 fun h => absurd ((hsome 3).1 h) (by decide)
  · obtain ⟨houtside, -⟩ := create_of_log (δ := ℚ) settings (show stray.lines ≠ [] by simp [stray])
    have hvalid : (settings.violation? true).isNone = true := by decide +kernel
    have hpolicy : (Policy.ofSettings settings : Attempt (Event ℚ ℚ) (Fault ℚ ℚ) _).outcome.toOption.any
        (fun _ => true) = true := by decide +kernel
    obtain ⟨p, hp, -⟩ := Attempt.exists_ok_of_any hpolicy
    exact (houtside [(0, r 1000)] 3 (r 2000) [] rfl (by simp [stray]) (by decide)).2
      (Option.isNone_iff_eq_none.1 hvalid) ⟨p, hp⟩

end Session
end RateControl
