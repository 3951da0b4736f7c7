-- SUMMARY: The table of a log: its length, its records in any order of the lines, and that it takes over no plan.
import RateControl.Proofs.Statistics.Writer

/-! # Tables of logs

A table has one record for each line and each picture behind the last line, or there is no table. Lines are put
into it in their order, so that of two with one index the later counts, and lines with different indices do not
see each other. -/

namespace RateControl.Log

variable {σ δ : Type} [Scalar σ]

/-- The records of lines put into a table. -/
def place (table : List (Record σ)) (lines : List (Nat × Record σ)) : List (Record σ) :=
  lines.foldl (fun t p => t.set p.1 p.2) table

omit [Scalar σ] in
theorem length_place (table : List (Record σ)) (lines : List (Nat × Record σ)) :
    (place table lines).length = table.length := by
  induction lines generalizing table with
  | nil => rfl
  | cons p lines ih => exact (ih (table.set p.1 p.2)).trans List.length_set

omit [Scalar σ] in
/-- An index that no line has keeps its record. -/
theorem getElem?_place_of_absent (table : List (Record σ)) {lines : List (Nat × Record σ)} {j : Nat}
    (h : ∀ p ∈ lines, p.1 ≠ j) : (place table lines)[j]? = table[j]? := by
  induction lines generalizing table with
  | nil => rfl
  | cons p lines ih =>
    obtain ⟨hp, hlines⟩ := List.forall_mem_cons.1 h
    calc
      (place table (p :: lines))[j]? = (place (table.set p.1 p.2) lines)[j]? := rfl
      _ = (table.set p.1 p.2)[j]? := ih _ hlines
      _ = table[j]? := List.getElem?_set_ne hp

omit [Scalar σ] in
/-- The last line of an index counts. -/
theorem getElem?_place_last {table : List (Record σ)} {n : Nat} (hn : n < table.length)
    (before : List (Nat × Record σ)) (r : Record σ) {after : List (Nat × Record σ)} (h : ∀ p ∈ after, p.1 ≠ n) :
    (place table (before ++ (n, r) :: after))[n]? = some r := by
  have hplace : place table (before ++ (n, r) :: after) = place ((place table before).set n r) after :=
    List.foldl_append
  rw [hplace, getElem?_place_of_absent _ h]
  exact List.getElem?_set_self (by rwa [length_place])

omit [Scalar σ] in
/-- Lines with different indices can be put into a table in any order. -/
theorem place_perm (table : List (Record σ)) {lines lines' : List (Nat × Record σ)} (hperm : lines'.Perm lines)
    (hnodup : (lines.map (·.1)).Nodup) : place table lines' = place table lines := by
  refine (hperm.symm.foldl_eq' (fun p hp p' hp' t => ?_) table).symm
  by_cases h : p.1 = p'.1
  · rw [List.inj_on_of_nodup_map hnodup hp hp' h]
  · exact List.set_comm p.2 p'.2 h

/-! ## The table of a log -/

omit [Scalar σ] in
theorem outlier?_eq_none {log : Log σ} {n : Nat} : log.outlier? n = none ↔ ∀ p ∈ log.lines, p.1 < n := by
  simp [outlier?]

omit [Scalar σ] in
theorem outlier?_first {log : Log σ} {entries n : Nat} {before after : List (Nat × Record σ)} {r : Record σ}
    (hlines : log.lines = before ++ (n, r) :: after) (hbefore : ∀ p ∈ before, p.1 < entries) (hn : entries ≤ n) :
    log.outlier? entries = some n := by
  have hnone : (before.map (·.1)).find? (entries ≤ ·) = none := by simpa using hbefore
  rw [outlier?, hlines, List.map_append, List.find?_append, hnone]
  simp [hn]

theorem table_eq (log : Log σ) (extra mbCount : Nat) :
    (log.table extra mbCount : Except (Fault σ δ) _) =
      if log.lines.length + extra = 0 then .error .emptyStatistics
      else match log.outlier? (log.lines.length + extra) with
        | some n => .error (.pictureOutOfRange n (log.lines.length + extra))
        | none   => .ok (place (.replicate (log.lines.length + extra) (.skipped mbCount)) log.lines) := rfl

/-- The table of an empty log has the pictures behind the last line only, if there are any. -/
theorem table_nil (extra mbCount : Nat) :
    (table ⟨[]⟩ extra mbCount : Except (Fault σ δ) _) =
      if extra = 0 then .error .emptyStatistics else .ok (.replicate extra (.skipped mbCount)) := by
  simp only [table_eq, List.length_nil, Nat.zero_add]
  rfl

/-- A line outside the table is a fault, and the first such line is named. -/
theorem table_of_outlier {log : Log σ} {extra n : Nat} (mbCount : Nat) {before after : List (Nat × Record σ)}
    {r : Record σ} (hlines : log.lines = before ++ (n, r) :: after)
    (hbefore : ∀ p ∈ before, p.1 < log.lines.length + extra) (hn : log.lines.length + extra ≤ n) :
    (log.table extra mbCount : Except (Fault σ δ) _) =
      .error (.pictureOutOfRange n (log.lines.length + extra)) := by
  have hpos : log.lines.length + extra ≠ 0 := by
    rw [hlines, List.length_append, List.length_cons]
    omega
  rw [table_eq, if_neg hpos, outlier?_first hlines hbefore hn]

/-- Lines that are all inside are put into a table of skipped pictures. -/
theorem table_of_inside {log : Log σ} {extra : Nat} (mbCount : Nat) (hlines : log.lines ≠ [])
    (hinside : ∀ p ∈ log.lines, p.1 < log.lines.length + extra) :
    (log.table extra mbCount : Except (Fault σ δ) _) =
      .ok (place (.replicate (log.lines.length + extra) (.skipped mbCount)) log.lines) := by
  have hpos : log.lines.length + extra ≠ 0 := by
    have := List.length_pos_of_ne_nil hlines
    omega
  rw [table_eq, if_neg hpos, outlier?_eq_none.2 hinside]

/-- The order of lines with different indices inside the table does not matter. -/
theorem table_perm {log log' : Log σ} {extra : Nat} (mbCount : Nat) (hlines : log.lines ≠ [])
    (hinside : ∀ p ∈ log.lines, p.1 < log.lines.length + extra) (hnodup : (log.lines.map (·.1)).Nodup)
    (hperm : log'.lines.Perm log.lines) :
    (log'.table extra mbCount : Except (Fault σ δ) _) = log.table extra mbCount := by
  have hlength := hperm.length_eq
  have hlines' : log'.lines ≠ [] := fun h => hlines (List.perm_nil.1 (h ▸ hperm).symm)
  have hinside' : ∀ p ∈ log'.lines, p.1 < log'.lines.length + extra :=
    fun p hp => by rw [hlength]; exact hinside p (hperm.mem_iff.1 hp)
  rw [table_of_inside mbCount hlines hinside, table_of_inside mbCount hlines' hinside', hlength,
    place_perm _ hperm hnodup]

/-- No table is empty. -/
theorem length_table {log : Log σ} {extra mbCount : Nat} {t : List (Record σ)}
    (h : (log.table extra mbCount : Except (Fault σ δ) _) = .ok t) :
    t.length = log.lines.length + extra ∧ t ≠ [] := by
  rw [table_eq] at h
  split at h
  · cases h
  · next hpos =>
    split at h
    · cases h
    · cases h
      have hlength := length_place (.replicate (log.lines.length + extra) (.skipped mbCount)) log.lines
      rw [List.length_replicate] at hlength
      exact ⟨hlength, List.ne_nil_of_length_pos (by omega)⟩

/-! ## Plans -/

omit [Scalar σ] in
theorem place_unplanned (table : List (Record σ)) (lines : List (Nat × Record σ)) :
    place (table.map Line.unplanned) (lines.map fun p => (p.1, Line.unplanned p.2)) =
      (place table lines).map Line.unplanned := by
  induction lines generalizing table with
  | nil => rfl
  | cons p lines ih =>
    have hset : (table.map Line.unplanned).set p.1 (Line.unplanned p.2) =
        (table.set p.1 p.2).map Line.unplanned := List.map_set.symm
    exact (congrArg (place · _) hset).trans (ih _)

/-- The table of a log without its plan is that of the log, without its plan. -/
theorem table_unplanned (log : Log Float32) (extra mbCount : Nat) :
    (log.unplanned.table extra mbCount : Except (Fault Float32 δ) _) =
      (·.map Line.unplanned) <$> log.table extra mbCount := by
  have hlength : log.unplanned.lines.length = log.lines.length := List.length_map _
  have houtlier (n : Nat) : log.unplanned.outlier? n = log.outlier? n := by
    simp only [outlier?, unplanned, List.map_map]
    rfl
  have hskipped (n : Nat) : List.replicate n (.skipped mbCount) =
      (List.replicate n (.skipped mbCount : Record Float32)).map Line.unplanned := by
    rw [List.map_replicate]
    rfl
  rw [table_eq, table_eq, hlength, houtlier]
  split
  · rfl
  · cases log.outlier? (log.lines.length + extra) with
    | some n => rfl
    | none => exact congrArg Except.ok ((congrArg (place · _) (hskipped _)).trans (place_unplanned _ _))

end RateControl.Log
