-- SUMMARY: The reader of statistics logs takes exactly the texts whose segments have the form of a line, and reports the first that has not.
import RateControl.Proofs.Statistics.Form
import RateControl.Statistics.Log

/-! # Reading logs

A text is cut behind every semicolon. What is left behind the last one is no part of the log. Each of the
other segments is a line, or else the first that is none makes the log corrupted. -/

namespace RateControl.Log

variable {σ δ : Type} [Scalar σ]

-- ---------------------------------------------------------------------------
-- Segments
-- ---------------------------------------------------------------------------

/-- Segments one after the other, each with its semicolon. -/
def ended (segs : List (List Char)) : List Char := segs.flatMap (· ++ [';'])

/-- Every text is made of segments that end in a semicolon, and a tail without any. -/
theorem exists_ended (s : List Char) :
    ∃ segs tail, s = ended segs ++ tail ∧ (∀ seg ∈ segs, ';' ∉ seg) ∧ ';' ∉ tail := by
  induction s with
  | nil => exact ⟨[], [], rfl, by simp, by simp⟩
  | cons c s ih =>
    obtain ⟨segs, tail, rfl, hsegs, htail⟩ := ih
    by_cases hc : c = ';'
    · exact ⟨[] :: segs, tail, by simp [ended, hc], by simpa using hsegs, htail⟩
    · cases segs with
      | nil => exact ⟨[], c :: tail, by simp [ended], by simp, by simp [Ne.symm hc, htail]⟩
      | cons seg segs =>
        refine ⟨(c :: seg) :: segs, tail, by simp [ended], ?_, htail⟩
        simpa [Ne.symm hc] using hsegs

theorem segments_ended {segs : List (List Char)} {tail : List Char} (hsegs : ∀ seg ∈ segs, ';' ∉ seg)
    (htail : ';' ∉ tail) : segments (ended segs ++ tail) = segs := by
  induction segs with
  | nil => simp [segments, ended, List.splitOn_eq_singleton htail]
  | cons seg segs ih =>
    obtain ⟨hseg, hsegs⟩ := List.forall_mem_cons.1 hsegs
    have hsplit : ended (seg :: segs) ++ tail = seg ++ ';' :: (ended segs ++ tail) := by simp [ended]
    rw [segments, hsplit, List.splitOn_append_cons_self_of_not_mem hseg,
      List.dropLast_cons_of_ne_nil (List.splitOn_ne_nil _ _)]
    exact congrArg (seg :: ·) (ih hsegs)

theorem count_ended {segs : List (List Char)} {tail : List Char} (hsegs : ∀ seg ∈ segs, ';' ∉ seg)
    (htail : ';' ∉ tail) : (ended segs ++ tail).count ';' = segs.length := by
  induction segs with
  | nil => exact List.count_eq_zero_of_not_mem htail
  | cons seg segs ih =>
    obtain ⟨hseg, hsegs⟩ := List.forall_mem_cons.1 hsegs
    have hsplit : ended (seg :: segs) ++ tail = seg ++ ';' :: (ended segs ++ tail) := by simp [ended]
    rw [hsplit, List.count_append, List.count_eq_zero_of_not_mem hseg, List.count_cons_self, ih hsegs]
    simp

-- ---------------------------------------------------------------------------
-- Lines
-- ---------------------------------------------------------------------------

variable [Binary σ]

/-- The segment stands for a line. -/
def IsLine (σ : Type) [Scalar σ] (s : List Char) : Prop := ∃ (n : Nat) (r : Record σ), Line.Form s n r

theorem form_of_read? {s : List Char} {l : Line σ} (h : Line.read? s = some l) {n : Nat} {r : Record σ} :
    Line.Form s n r ↔ (n, r) = (l.picture, l.record) := by
  simp only [Line.Form, ← exists_and_right, ← Line.read?_eq_some_iff (l := ⟨_, _, r⟩), h]
  constructor
  · rintro ⟨position, heq⟩
    cases heq
    rfl
  · intro heq
    cases heq
    exact ⟨l.position, rfl⟩

theorem not_isLine_of_read? {s : List Char} (h : (Line.read? s : Option (Line σ)) = none) : ¬ IsLine σ s := by
  rintro ⟨n, r, ⟨position, hwritten⟩, hplan⟩
  have hread := (Line.read?_eq_some_iff (l := ⟨n, position, r⟩)).2 ⟨hwritten, hplan⟩
  rw [h] at hread
  cases hread

theorem readSegments_cons (n : Nat) (s : List Char) (segs : List (List Char)) :
    (readSegments n (s :: segs) : Except (Fault σ δ) (List (Nat × Record σ))) =
      match Line.read? s with
      | none => .error (.corruptedStatistics n)
      | some l => ((l.picture, l.record) :: ·) <$> readSegments (n + 1) segs := by
  rw [readSegments]
  cases (Line.read? s : Option (Line σ)) with
  | none => rfl
  | some l => simp only [bind_pure_comp]

theorem map_eq_ok {ε α β : Type} {f : α → β} {x : Except ε α} {b : β} :
    f <$> x = .ok b ↔ ∃ a, x = .ok a ∧ b = f a := by
  cases x <;> simp [eq_comm]

theorem map_eq_error {ε α β : Type} {f : α → β} {x : Except ε α} {e : ε} :
    f <$> x = .error e ↔ x = .error e := by
  cases x <;> simp

theorem readSegments_eq_ok {n : Nat} {segs : List (List Char)} {lines : List (Nat × Record σ)} :
    readSegments n segs = (.ok lines : Except (Fault σ δ) _) ↔
      List.Forall₂ (fun s p => Line.Form s p.1 p.2) segs lines := by
  induction segs generalizing n lines with
  | nil => simp [readSegments, eq_comm]
  | cons s segs ih =>
    rw [readSegments_cons, List.forall₂_cons_left_iff]
    cases hread : (Line.read? s : Option (Line σ)) with
    | none =>
      refine iff_of_false (by simp) ?_
      rintro ⟨p, -, hp, -⟩
      exact not_isLine_of_read? hread ⟨p.1, p.2, hp⟩
    | some l =>
      simp only [map_eq_ok, ih, form_of_read? hread]
      constructor
      · rintro ⟨ls, hls, rfl⟩
        exact ⟨_, ls, rfl, hls, rfl⟩
      · rintro ⟨p, ls, hp, hls, rfl⟩
        obtain rfl : p = (l.picture, l.record) := hp
        exact ⟨ls, hls, rfl⟩

theorem readSegments_eq_error {n : Nat} {segs : List (List Char)} {fault : Fault σ δ} :
    (readSegments n segs : Except _ (List (Nat × Record σ))) = .error fault ↔
      ∃ before s after, segs = before ++ s :: after ∧ (∀ b ∈ before, IsLine σ b) ∧ ¬ IsLine σ s ∧
        fault = .corruptedStatistics (n + before.length) := by
  induction segs generalizing n with
  | nil => simp [readSegments]
  | cons s segs ih =>
    rw [readSegments_cons]
    cases hread : (Line.read? s : Option (Line σ)) with
    | none =>
      have hnot := not_isLine_of_read? hread
      constructor
      · intro h
        cases h
        exact ⟨[], s, segs, rfl, by simp, hnot, rfl⟩
      · rintro ⟨before, s', after, heq, hbefore, -, rfl⟩
        cases before with
        | nil => rfl
        | cons b before =>
          cases heq
          exact absurd (hbefore _ List.mem_cons_self) hnot
    | some l =>
      have hline : IsLine σ s := ⟨l.picture, l.record, (form_of_read? hread).2 rfl⟩
      simp only [map_eq_error, ih]
      constructor
      · rintro ⟨before, s', after, rfl, hbefore, hs', rfl⟩
        refine ⟨s :: before, s', after, rfl, List.forall_mem_cons.2 ⟨hline, hbefore⟩, hs', ?_⟩
        rw [List.length_cons, Nat.add_right_comm, Nat.add_assoc]
      · rintro ⟨before, s', after, heq, hbefore, hs', rfl⟩
        cases before with
        | nil =>
          cases heq
          exact absurd hline hs'
        | cons b before =>
          cases heq
          refine ⟨before, s', after, rfl, (List.forall_mem_cons.1 hbefore).2, hs', ?_⟩
          rw [List.length_cons, Nat.add_right_comm, Nat.add_assoc]

-- ---------------------------------------------------------------------------
-- Logs
-- ---------------------------------------------------------------------------

theorem read_ended {text : String} {segs : List (List Char)} {tail : List Char}
    (htext : text.toList = ended segs ++ tail) (hsegs : ∀ seg ∈ segs, ';' ∉ seg) (htail : ';' ∉ tail)
    (hne : segs ≠ []) : (read text : Except (Fault σ δ) (Log σ)) = (⟨·⟩) <$> readSegments 0 segs := by
  rw [read, htext, segments_ended hsegs htail]
  split
  · next heq => exact absurd rfl hne
  · simp only [bind_pure_comp]

/-- The log is read from the segments that end in a semicolon, if there are any: it has one line for each,
    unless one is not of the form of a line. -/
theorem read_iff (text : String) : ∃ segs tail, text.toList = ended segs ++ tail ∧
    (∀ s ∈ segs, ';' ∉ s) ∧ ';' ∉ tail ∧ segs.length = text.toList.count ';' ∧
    (segs = [] → read text = (.error .emptyStatistics : Except (Fault σ δ) _)) ∧
    (segs ≠ [] →
      (∀ log : Log σ, read text = (.ok log : Except (Fault σ δ) _) ↔
        List.Forall₂ (fun s p => Line.Form s p.1 p.2) segs log.lines) ∧
      ∀ fault : Fault σ δ, (read text : Except _ (Log σ)) = .error fault ↔
        ∃ before s after, segs = before ++ s :: after ∧ (∀ b ∈ before, IsLine σ b) ∧ ¬ IsLine σ s ∧
          fault = .corruptedStatistics before.length) := by
  obtain ⟨segs, tail, htext, hsegs, htail⟩ := exists_ended text.toList
  refine ⟨segs, tail, htext, hsegs, htail, by rw [htext, count_ended hsegs htail], ?_, ?_⟩
  · rintro rfl
    rw [read, htext, segments_ended hsegs htail]
  · intro hne
    have hread := read_ended (δ := δ) (σ := σ) htext hsegs htail hne
    constructor
    · intro log
      simp only [hread, map_eq_ok, readSegments_eq_ok]
      constructor
      · rintro ⟨lines, hlines, rfl⟩
        exact hlines
      · intro hlines
        exact ⟨log.lines, hlines, rfl⟩
    · intro fault
      simp only [hread, map_eq_error, readSegments_eq_error, Nat.zero_add]

end RateControl.Log
