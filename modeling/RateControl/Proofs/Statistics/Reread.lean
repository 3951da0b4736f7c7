-- SUMMARY: A log that was read is written and read again unless it has a quantizer of minus infinity or an index outside the signed range.
import RateControl.Proofs.Attempt
import RateControl.Proofs.Statistics.Writer

/-! # Logs read again

The reader takes more than the writer writes: signs, exponents, both codes of a type, and decimals too great
for a quantizer, which become infinite. Nearly all of what it takes is written in a form that it takes again.
There are two exceptions. No text stands for minus infinity, since the reader takes no sign in front of a
word, and the index of a picture is written a second time for a field of a smaller range. -/

namespace RateControl

open Numeral

namespace Line

-- ---------------------------------------------------------------------------
-- Quantizers
-- ---------------------------------------------------------------------------

/-- A quantizer is no number, or one whose text is a numeral of it, or minus infinity. -/
theorem quantizer_cases (x : Float32) : Scalar.isNaN x = true ∨
    (Scalar.isFinite x = true ∨ x = 1.0 / 0.0) ∨ x = -1.0 / 0.0 := by
  have hfinite : Scalar.isFinite x = (Binary.unpack x).isFinite := rfl
  rw [Binary.isNaN_iff, hfinite]
  cases hx : Binary.unpack x with
  | notANumber => exact .inl rfl
  | infinity s =>
    cases s with
    | positive => exact .inr (.inl (.inr (Binary.Lawful.unpack_injective hx)))
    | negative => exact .inr (.inr (Binary.Lawful.unpack_injective hx))
  | zero s => exact .inr (.inl (.inl rfl))
  | finite s m e hm => exact .inr (.inl (.inl rfl))

theorem ne_neg_infinity {x : Float32} (h : -1.0 / 0.0 < x) : x ≠ -1.0 / 0.0 := by
  rintro rfl
  exact absurd h (by decide)

theorem not_mem_quantizerText {x : Float32} (hx : Scalar.isNaN x = false) : ';' ∉ quantizerText x := by
  obtain hnan | hnumeral | rfl := quantizer_cases x
  · rw [hx] at hnan
    cases hnan
  · exact (numeral_quantizerText hnumeral).not_mem
  · decide

/-- The reader takes no sign in front of a word. -/
theorem readQuantizer_neg_infinity (rest : List Char) :
    (readQuantizer (quantizerText (-1.0 / 0.0 : Float32) ++ rest) : Option (Float32 × _)) = none := by
  have htext : quantizerText (-1.0 / 0.0 : Float32) = ['-', 'i', 'n', 'f'] := by decide
  rw [htext]
  rfl

-- ---------------------------------------------------------------------------
-- Lines
-- ---------------------------------------------------------------------------

/-- A line with a quantizer of minus infinity is not read. -/
theorem read?_text_neg_infinity {n : Nat} {r : Record Float32} (hn : n < 2 ^ 63)
    (hq : r.quantizer = -1.0 / 0.0) {b : List Char} (hb : b.all isBlank = true) :
    (read? (b ++ text ⟨n, n, r⟩) : Option (Line Float32)) = none := by
  have hbefore : List.Forall₂ (fun f i => Reads f i ∧ Writes ⟨n, n, r⟩ ⟨n, n, r⟩ f i)
      [.picture, .position, .pictureType] [.picture, .position, .pictureType] :=
    .cons ⟨reads_picture, writes_picture (by dsimp only; omega) rfl⟩ <|
    .cons ⟨reads_position, writes_position (by dsimp only; omega) (by dsimp only; omega) rfl⟩ <|
    .cons ⟨reads_pictureType, writes_pictureType rfl⟩ .nil
  have hquantizer (rest : List Char) (_ : NoDigit rest) :
      Field.quantizer.read (Field.quantizer.write (⟨n, n, r⟩ : Line Float32) ++ rest) =
        (none : Option ((Line Float32 → Line Float32) × _)) := by
    simp only [Field.quantizer, hq, readQuantizer_neg_infinity, Option.map_none]
  exact read?_eq_none rfl hquantizer hbefore (by simp [format]) hb

/-- The index of a line fits into the unsigned range. -/
theorem Form.lt {σ : Type} [Scalar σ] {s : List Char} {n : Nat} {r : Record σ} (h : Form s n r) :
    n < 2 ^ 64 := by
  obtain ⟨⟨position, hwritten⟩, -⟩ := h
  rw [format] at hwritten
  cases hwritten with
  | item _ hpicture _ =>
    obtain ⟨-, hle⟩ := hpicture
    exact Nat.lt_succ_of_le hle

theorem Form.unplanned_eq {σ : Type} [Scalar σ] {s : List Char} {n : Nat} {r : Record σ} (h : Form s n r) :
    unplanned r = r := by
  obtain ⟨-, hquantizer, hbits⟩ := h
  cases r
  cases hquantizer
  cases hbits
  rfl

end Line

-- ---------------------------------------------------------------------------
-- Logs
-- ---------------------------------------------------------------------------

namespace Log

variable {δ : Type} {log : Log Float32}

/-- What is written for the picture can be read. -/
def Readable (p : Nat × Record Float32) : Prop := p.1 < 2 ^ 63 ∧ p.2.quantizer ≠ -1.0 / 0.0

/-- The line of a picture has the form of a line if the picture is readable, and otherwise is not read. -/
theorem Holds.form_of_readable {s : List Char} {p : Nat × Record Float32}
    (hnan : Scalar.isNaN p.2.quantizer = false) (hp : Readable p) (h : Holds s p) :
    Line.Form s p.1 (Line.unplanned p.2) := by
  obtain hq | hq | hq := Line.quantizer_cases p.2.quantizer
  · rw [hnan] at hq
    cases hq
  · exact h.form hp.1 hq
  · exact absurd hq hp.2

theorem Holds.not_isLine {s : List Char} {p : Nat × Record Float32} (hindex : p.1 < 2 ^ 64) (hp : ¬ Readable p)
    (h : Holds s p) : ¬ IsLine Float32 s := by
  obtain ⟨b, hb, rfl⟩ := h
  refine not_isLine_of_read? ?_
  by_cases hlow : p.1 < 2 ^ 63
  · exact Line.read?_text_neg_infinity hlow (by_contra fun hq => hp ⟨hlow, hq⟩) hb
  · exact Line.read?_text_eq_none (Nat.le_of_not_lt hlow) hindex hb

/-- The segments that a written log is cut into hold its lines. -/
theorem read_written (hne : log.lines ≠ []) (hnan : ∀ p ∈ log.lines, Scalar.isNaN p.2.quantizer = false) :
    ∃ segs, List.Forall₂ Holds segs log.lines ∧
      (read log.text : Except (Fault Float32 δ) _) = (⟨·⟩) <$> readSegments 0 segs := by
  obtain ⟨segs, htext, hholds⟩ := exists_segments hne (b := []) rfl
  have hsegs : ∀ s ∈ segs, ';' ∉ s := forall_of_holds hholds hnan fun s p hp hs =>
    hs.not_mem_of_quantizer (Line.not_mem_quantizerText hp)
  have hne' : segs ≠ [] := by
    rintro rfl
    exact hne (List.forall₂_nil_left_iff.1 hholds)
  exact ⟨segs, hholds, read_ended htext hsegs (by decide) hne'⟩

theorem read_of_readable (hne : log.lines ≠ [])
    (hnan : ∀ p ∈ log.lines, Scalar.isNaN p.2.quantizer = false) (hread : ∀ p ∈ log.lines, Readable p) :
    read log.text = (.ok log.unplanned : Except (Fault Float32 δ) _) := by
  obtain ⟨segs, hholds, htext⟩ := read_written (δ := δ) hne hnan
  have hgood : ∀ p ∈ log.lines, Scalar.isNaN p.2.quantizer = false ∧ Readable p :=
    fun p hp => ⟨hnan p hp, hread p hp⟩
  have hforms : List.Forall₂ (fun s p => Line.Form s p.1 p.2) segs log.unplanned.lines := by
    rw [unplanned, List.forall₂_map_right_iff]
    exact (forall₂_holds_and hholds hgood).imp fun s p hp => hp.2.form_of_readable hp.1.1 hp.1.2
  exact htext.trans (map_eq_ok.2 ⟨_, readSegments_eq_ok.2 hforms, rfl⟩)

/-- The first picture that is not readable makes a written log corrupted. -/
theorem read_of_not_readable {before after : List (Nat × Record Float32)} {p : Nat × Record Float32}
    (hlines : log.lines = before ++ p :: after) (hnan : ∀ p ∈ log.lines, Scalar.isNaN p.2.quantizer = false)
    (hbefore : ∀ p' ∈ before, Readable p') (hindex : p.1 < 2 ^ 64) (hp : ¬ Readable p) :
    read log.text = (.error (.corruptedStatistics before.length) : Except (Fault Float32 δ) _) := by
  obtain ⟨segs, hholds, htext⟩ := read_written (δ := δ) (by simp [hlines]) hnan
  rw [hlines] at hholds hnan
  have hfirst := List.forall₂_take_append _ _ _ hholds
  have hrest := List.forall₂_drop_append _ _ _ hholds
  obtain ⟨s, after', hs, -, hdrop⟩ := List.forall₂_cons_right_iff.1 hrest
  have hgood : ∀ p' ∈ before, Scalar.isNaN p'.2.quantizer = false ∧ Readable p' :=
    fun p' hp' => ⟨hnan p' (List.mem_append_left _ hp'), hbefore p' hp'⟩
  have hform : ∀ s ∈ segs.take before.length, IsLine Float32 s := forall_of_holds hfirst hgood
    fun s p' hp' hs => ⟨p'.1, Line.unplanned p'.2, hs.form_of_readable hp'.1 hp'.2⟩
  refine htext.trans (map_eq_error.2 (readSegments_eq_error.2
    ⟨segs.take before.length, s, after', ?_, hform, hs.not_isLine hindex hp, ?_⟩))
  · rw [← hdrop, List.take_append_drop]
  · rw [hfirst.length_eq, Nat.zero_add]

/-- Lines that are not all readable have a first one that is not. -/
theorem exists_first_not_readable {lines : List (Nat × Record Float32)} (h : ¬ ∀ p ∈ lines, Readable p) :
    ∃ before p after, lines = before ++ p :: after ∧ (∀ p' ∈ before, Readable p') ∧ ¬ Readable p := by
  classical
  cases hfind : lines.find? fun p => ¬ Readable p with
  | none => exact absurd (fun p hp => by simpa using List.find?_eq_none.1 hfind p hp) h
  | some p =>
    obtain ⟨hp, before, after, hlines, hbefore⟩ := List.find?_eq_some_iff_append.1 hfind
    exact ⟨before, p, after, hlines, by simpa using hbefore, by simpa using hp⟩

/-- What is read is no empty log, its indices fit into the unsigned range, and it has no plan. -/
theorem of_read {text : String} (h : read text = (.ok log : Except (Fault Float32 δ) _)) :
    log.lines ≠ [] ∧ (∀ p ∈ log.lines, p.1 < 2 ^ 64) ∧ log.unplanned = log := by
  obtain ⟨segs, tail, htext, hsegs, htail⟩ := exists_ended text.toList
  by_cases hne : segs = []
  · rw [read, htext, segments_ended hsegs htail, hne] at h
    cases h
  · rw [read_ended htext hsegs htail hne, map_eq_ok] at h
    obtain ⟨lines, hlines, rfl⟩ := h
    have hforms := readSegments_eq_ok.1 hlines
    have hkept : ∀ p ∈ lines, p.1 < 2 ^ 64 ∧ Line.unplanned p.2 = p.2 :=
      ((List.forall₂_and_left _ _).1 <| hforms.flip.imp fun p s hp =>
        ⟨⟨Line.Form.lt hp, Line.Form.unplanned_eq hp⟩, hp⟩).1
    refine ⟨?_, fun p hp => (hkept p hp).1, congrArg Log.mk ?_⟩
    · rintro rfl
      exact hne (List.forall₂_nil_right_iff.1 hforms)
    · refine (List.map_congr_left fun p hp => ?_).trans (List.map_id lines)
      exact congrArg (p.1, ·) (hkept p hp).2

/-- A log without NaN that was read is written in a form that is read as the same log again, just when all its
    pictures are readable. Otherwise the first that is not is reported. -/
theorem read_again {text : String} (h : read text = (.ok log : Except (Fault Float32 δ) _))
    (hnan : ∀ p ∈ log.lines, Scalar.isNaN p.2.quantizer = false) :
    (read log.text = (.ok log : Except (Fault Float32 δ) _) ↔
      ∀ p ∈ log.lines, p.1 < 2 ^ 63 ∧ p.2.quantizer ≠ -1.0 / 0.0) ∧
    ∀ before p after, log.lines = before ++ p :: after →
      (∀ p' ∈ before, p'.1 < 2 ^ 63 ∧ p'.2.quantizer ≠ -1.0 / 0.0) →
      (2 ^ 63 ≤ p.1 ∨ p.2.quantizer = -1.0 / 0.0) →
      read log.text = (.error (.corruptedStatistics before.length) : Except (Fault Float32 δ) _) := by
  obtain ⟨hne, hindex, hplan⟩ := of_read h
  have hfirst {before after : List _} {p} (hlines : log.lines = before ++ p :: after)
      (hbefore : ∀ p' ∈ before, Readable p') (hp : ¬ Readable p) :
      read log.text = (.error (.corruptedStatistics before.length) : Except (Fault Float32 δ) _) :=
    read_of_not_readable hlines hnan hbefore (hindex p (by simp [hlines])) hp
  refine ⟨⟨fun hread => ?_, fun hread => ?_⟩, fun before p after hlines hbefore hp => ?_⟩
  · by_contra hnot
    obtain ⟨before, p, after, hlines, hbefore, hp⟩ := exists_first_not_readable hnot
    rw [hfirst hlines hbefore hp] at hread
    cases hread
  · have := read_of_readable (δ := δ) hne hnan hread
    rwa [hplan] at this
  · refine hfirst hlines hbefore fun ⟨hlow, hquantizer⟩ => ?_
    obtain hhigh | hinfinite := hp
    · omega
    · exact hquantizer hinfinite

/-- A line in an unusual form, with a quantizer that is too great to be finite. -/
theorem read_again_unusual_line :
    let text := "\r\n\tin:00 out:-7 type:6 q:+.1E40 itex:+5ptex:0mv:-0 misc:0 fcode:1 bcode:1 mc-var:0 " ++
      "var:007 icount:0 skipcount:0 hbits:0 ; nothing"
    ∃ log : Log Float32, read text = (.ok log : Except (Fault Float32 Float) _) ∧
      (∀ p ∈ log.lines, Scalar.isNaN p.2.quantizer = false) ∧
      (∀ p ∈ log.lines, p.1 < 2 ^ 63 ∧ p.2.quantizer ≠ -1.0 / 0.0) ∧
      read log.text = (.ok log : Except (Fault Float32 Float) _) := by
  intro text
  have h : (read text : Except (Fault Float32 Float) (Log Float32)).toOption.any (fun log =>
      log.lines.all fun p => !Scalar.isNaN p.2.quantizer && decide (p.1 < 2 ^ 63) &&
        decide ((-1.0 / 0.0 : Float32) < p.2.quantizer)) = true := by decide +kernel
  obtain ⟨log, hlog, h⟩ := Attempt.exists_ok_of_any h
  simp only [List.all_eq_true, Bool.and_eq_true, Bool.not_eq_true', decide_eq_true_eq] at h
  have hnan : ∀ p ∈ log.lines, Scalar.isNaN p.2.quantizer = false := fun p hp => (h p hp).1.1
  have hread : ∀ p ∈ log.lines, p.1 < 2 ^ 63 ∧ p.2.quantizer ≠ -1.0 / 0.0 :=
    fun p hp => ⟨(h p hp).1.2, Line.ne_neg_infinity (h p hp).2⟩
  exact ⟨log, hlog, hnan, hread, (read_again hlog hnan).1.2 hread⟩

/-- A quantizer below the range is read as minus infinity, which is written but not read. -/
theorem not_read_again_of_infinity :
    let text := "in:0 out:0 type:2 q:-1e39 itex:0 ptex:0 mv:0 misc:0 fcode:0 bcode:0 mc-var:0 var:0 " ++
      "icount:0 skipcount:0 hbits:0;"
    ∃ log : Log Float32, read text = (.ok log : Except (Fault Float32 Float) _) ∧
      (∀ p ∈ log.lines, Scalar.isNaN p.2.quantizer = false) ∧
      (read log.text : Except (Fault Float32 Float) (Log Float32)).toOption = none := by
  intro text
  have h : (read text : Except (Fault Float32 Float) (Log Float32)).toOption.any (fun log =>
      (log.lines.all fun p => !Scalar.isNaN p.2.quantizer) &&
        (read log.text : Except (Fault Float32 Float) (Log Float32)).toOption.isNone) = true := by decide +kernel
  obtain ⟨log, hlog, h⟩ := Attempt.exists_ok_of_any h
  simp only [List.all_eq_true, Bool.and_eq_true, Bool.not_eq_true', Option.isNone_iff_eq_none] at h
  exact ⟨log, hlog, h.1, h.2⟩

end Log
end RateControl
