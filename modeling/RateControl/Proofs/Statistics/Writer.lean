-- SUMMARY: A written statistics log is read back as it was, while the indices of its pictures fit into the signed range.
import RateControl.Proofs.Numeral.Shortest
import RateControl.Proofs.Statistics.Reader

/-! # Written logs read back

What the writer writes for a value is a numeral of the value, so a written line has the form of a line. The
index of a picture is written for both of its indices, but the reader takes the second one from a smaller
range: a picture from `2 ^ 63` on makes the log corrupted. -/

namespace RateControl

open Numeral

-- ---------------------------------------------------------------------------
-- Semicolons
-- ---------------------------------------------------------------------------

theorem Numeral.AllDigits.not_mem {ds : List Char} (h : AllDigits ds) : ';' ∉ ds := fun hmem =>
  absurd (h _ hmem) (by decide)

theorem Numeral.Sign.not_mem {g : List Char} {negative : Bool} (h : Sign g negative) : ';' ∉ g := by
  cases h <;> decide

namespace Line

variable {σ : Type}

theorem QuantizerNumeral.not_mem [Scalar σ] {u : List Char} {q : σ} (h : QuantizerNumeral u q) : ';' ∉ u := by
  have hword {w v : List Char} (hw : w.map Char.toLower = v) (hv : ';' ∉ v) : ';' ∉ w := by
    rintro hmem
    rw [← hw] at hv
    exact hv (List.mem_map.2 ⟨';', hmem, by decide⟩)
  cases h with
  | decimal hg hu =>
    cases hu with
    | intro hm hx =>
      have hmantissa {m ds : List Char} {places : Nat} (h : Decimal.Mantissa m ds places) : ';' ∉ m := by
        cases h with
        | whole hds => exact AllDigits.not_mem hds.2
        | point hds hfs => simp [AllDigits.not_mem hds.2, AllDigits.not_mem hfs]
        | fraction hfs => simp [AllDigits.not_mem hfs.2]
      have hexponent {x : List Char} {e : Int} (h : Decimal.Exponent x e) : ';' ∉ x := by
        cases h with
        | none => simp
        | some hc hg hds =>
          obtain rfl | rfl : _ = 'e' ∨ _ = 'E' := by simpa using hc
          · simp [Sign.not_mem hg, AllDigits.not_mem hds.2]
          · simp [Sign.not_mem hg, AllDigits.not_mem hds.2]
      simp [Sign.not_mem hg, hmantissa hm, hexponent hx]
  | nan hw => exact hword hw (by decide)
  | inf hw => exact hword hw (by decide)

-- ---------------------------------------------------------------------------
-- Quantizers
-- ---------------------------------------------------------------------------

/-- A sign and the text of a decimal without one. -/
theorem numeral_text {d : Decimal} (hd : d.negative = false) {g : List Char} {negative : Bool}
    (hg : Sign g negative) : QuantizerNumeral (g ++ d.text) ({ d with negative }.unscaled.value : Float32) :=
  .decimal hg (Decimal.unsigned_text hd negative)

/-- The text of a quantizer is a numeral of the quantizer. -/
theorem numeral_quantizerText {x : Float32} (hx : Scalar.isFinite x = true ∨ x = 1.0 / 0.0) :
    QuantizerNumeral (quantizerText x) x := by
  have hfinite : Scalar.isFinite x = (Binary.unpack x).isFinite := rfl
  rw [quantizerText, Shortest.text]
  cases hu : Binary.unpack x with
  | notANumber =>
    rw [hfinite, hu] at hx
    obtain hx | rfl := hx
    · cases hx
    · cases hu
  | infinity s =>
    rw [hfinite, hu] at hx
    obtain hx | rfl := hx
    · cases hx
    · obtain rfl : s = .positive := by cases hu; rfl
      exact .inf rfl
  | zero s =>
    have hzero (d : Decimal) (h : Binary.unpack (d.value : Float32) = .zero s) : (d.value : Float32) = x :=
      Binary.Lawful.unpack_injective (h.trans hu.symm)
    cases s with
    | positive =>
      rw [← hzero ⟨false, 0, 0⟩ rfl]
      exact numeral_text (d := ⟨false, 0, 0⟩) rfl .none
    | negative =>
      rw [← hzero ⟨true, 0, 0⟩ rfl]
      exact numeral_text (d := ⟨false, 0, 0⟩) rfl .minus
  | finite s m e hm =>
    cases s with
    | positive =>
      obtain ⟨d, hd, hnegative, hvalue⟩ := Shortest.decimal_spec (show false = _ from rfl) hu
      have h := numeral_text hnegative .none
      rw [hvalue, hd] at h
      exact h
    | negative =>
      obtain ⟨d, hd, hnegative, hvalue⟩ := Shortest.decimal_spec (show true = _ from rfl) hu
      have h := numeral_text hnegative .minus
      rw [hvalue, hd] at h
      exact h

-- ---------------------------------------------------------------------------
-- Lines
-- ---------------------------------------------------------------------------

/-- What the field writes for the line `l` is a numeral of what the line `l'` has in the item. -/
def Writes (l l' : Line σ) (f : Field σ) (i : Item σ) : Prop :=
  f.label = i.label ∧ i.Numeral (f.write l) (i.get l')

theorem writes_picture {l l' : Line σ} (hn : l.picture < 2 ^ 64) (h : l.picture = l'.picture) :
    Writes l l' Field.picture Item.picture := by
  refine ⟨rfl, ?_⟩
  simp only [Field.picture, Item.picture, ← h]
  exact natNumeral_natText (by omega)

theorem writes_position {l l' : Line σ} (hlow : -2 ^ 63 ≤ l.position) (hhigh : l.position < 2 ^ 63)
    (h : l.position = l'.position) : Writes l l' Field.position Item.position := by
  refine ⟨rfl, ?_⟩
  simp only [Field.position, Item.position, ← h]
  exact intNumeral_intText (by omega) (by omega)

theorem writes_pictureType {l l' : Line σ} (h : l.record.pictureType = l'.record.pictureType) :
    Writes l l' Field.pictureType Item.pictureType := by
  have hcode : l.record.pictureType.code ≤ 5 := by cases l.record.pictureType <;> decide
  have hnumeral : IntNumeral (-9223372036854775808) 9223372036854775807 (natText l.record.pictureType.code)
      l.record.pictureType.code := intNumeral_intText (n := l.record.pictureType.code) (by omega) (by omega)
  exact ⟨rfl, _, hnumeral, (PictureType.ofCode?_code _).trans (congrArg some h)⟩

theorem writes_int32 {l l' : Line σ} (label : String) (get : Record σ → Int32)
    (set : Int32 → Record σ → Record σ) (get_set : ∀ n r, get (set n r) = n)
    (h : get l.record = get l'.record) :
    Writes l l' (Field.int32 label get set) (Item.int32 label get set get_set) := by
  have hlow := (get l'.record).le_toInt
  have hhigh := (get l'.record).toInt_lt
  refine ⟨rfl, ?_⟩
  simp only [Field.int32, h]
  exact intNumeral_intText (by omega) (by omega)

theorem writes_int64 {l l' : Line σ} (label : String) (get : Record σ → Int64)
    (set : Int64 → Record σ → Record σ) (get_set : ∀ n r, get (set n r) = n)
    (h : get l.record = get l'.record) :
    Writes l l' (Field.int64 label get set) (Item.int64 label get set get_set) := by
  have hlow := (get l'.record).le_toInt
  have hhigh := (get l'.record).toInt_lt
  refine ⟨rfl, ?_⟩
  simp only [Field.int64, h]
  exact intNumeral_intText (by omega) (by omega)

/-- The text of fields with one space between them, and blanks in front. -/
theorem written_fields {l l' : Line σ} {fs : List (Field σ)} {items : List (Item σ)}
    (h : List.Forall₂ (Writes l l') fs items) {b : List Char} (hb : b.all isBlank = true) :
    Written l' items (b ++ [' '].intercalate (fs.map fun f => f.label.toList ++ f.write l)) := by
  induction h generalizing b with
  | nil => simpa [List.intercalate] using Written.done hb
  | @cons f i fs items hf hfs ih =>
    obtain ⟨hlabel, hnumeral⟩ := hf
    cases hfs with
    | nil =>
      have h := Written.item hb hnumeral (.done (b := []) rfl)
      simpa [hlabel] using h
    | cons hf' hfs' =>
      have h := Written.item hb hnumeral (ih (b := [' ']) rfl)
      simpa [hlabel, List.intercalate_cons_cons] using h

/-- A record that has no plan yet. -/
def unplanned (r : Record σ) : Record σ := { r with plannedQuantizer := r.quantizer, plannedBits := 0 }

variable {n : Nat} {r : Record Float32}

theorem writes_format (hn : n < 2 ^ 63)
    (hq : Scalar.isFinite r.quantizer = true ∨ r.quantizer = 1.0 / 0.0) :
    List.Forall₂ (Writes ⟨n, n, r⟩ ⟨n, n, unplanned r⟩) fields format := by
  exact
    .cons (writes_picture (by dsimp only; omega) rfl) <|
    .cons (writes_position (by dsimp only; omega) (by dsimp only; omega) rfl) <|
    .cons (writes_pictureType rfl) <|
    .cons ⟨rfl, numeral_quantizerText hq⟩ <|
    .cons (writes_int32 _ _ _ _ rfl) <| .cons (writes_int32 _ _ _ _ rfl) <|
    .cons (writes_int32 _ _ _ _ rfl) <| .cons (writes_int32 _ _ _ _ rfl) <|
    .cons (writes_int32 _ _ _ _ rfl) <| .cons (writes_int32 _ _ _ _ rfl) <|
    .cons (writes_int64 _ _ _ _ rfl) <| .cons (writes_int64 _ _ _ _ rfl) <|
    .cons (writes_int32 _ _ _ _ rfl) <| .cons (writes_int32 _ _ _ _ rfl) <|
    .cons (writes_int32 _ _ _ _ rfl) .nil

/-- A written line has the form of a line, with blanks in front too. -/
theorem form_text (hn : n < 2 ^ 63) (hq : Scalar.isFinite r.quantizer = true ∨ r.quantizer = 1.0 / 0.0)
    {b : List Char} (hb : b.all isBlank = true) : Form (b ++ text ⟨n, n, r⟩) n (unplanned r) :=
  ⟨⟨n, written_fields (writes_format hn hq) hb⟩, rfl, rfl⟩

theorem intercalate_cons_eq {α : Type} (sep x : List α) (xs : List (List α)) :
    sep.intercalate (x :: xs) = x ++ xs.flatMap (sep ++ ·) := by
  induction xs generalizing x with
  | nil => simp
  | cons y xs ih => rw [List.intercalate_cons_cons, ih, List.flatMap_cons, List.append_assoc, List.append_assoc]

theorem intercalate_cons_of_ne_nil {α : Type} {sep x : List α} {xs : List (List α)} (h : xs ≠ []) :
    sep.intercalate (x :: xs) = x ++ (sep ++ sep.intercalate xs) := by
  cases xs with
  | nil => exact absurd rfl h
  | cons y xs => rw [List.intercalate_cons_cons, List.append_assoc]

/-- A row of fields is not read on from a field that does not take what is written for it. -/
theorem readFields_eq_none {l l' : Line σ} {f : Field σ} (hlabel : Starts f.label.toList)
    (hvalue : ∀ rest, NoDigit rest → f.read (f.write l ++ rest) = none) {before : List (Field σ)}
    {items : List (Item σ)} (hbefore : List.Forall₂ (fun f i => Reads f i ∧ Writes l l' f i) before items)
    (hstart : ∀ i ∈ items, Starts i.label.toList) (after : List (Field σ)) (l₀ : Line σ) {b : List Char}
    (hb : b.all isBlank = true) :
    readFields (before ++ f :: after) l₀
      (b ++ [' '].intercalate ((before ++ f :: after).map fun f => f.label.toList ++ f.write l)) = none := by
  induction hbefore generalizing b l₀ with
  | nil =>
    have hrest : NoDigit (after.flatMap fun f => [' '] ++ (f.label.toList ++ f.write l)) := by
      cases after with
      | nil => simp [NoDigit]
      | cons f' after => exact .cons (by decide)
    have hread := readFields_cons_eq_none hlabel hb (hvalue _ hrest) after l₀
    rw [List.nil_append, List.map_cons, intercalate_cons_eq, List.flatMap_map]
    simpa using hread
  | @cons f' i before items hf' hbefore ih =>
    obtain ⟨hi, hstart⟩ := List.forall_mem_cons.1 hstart
    obtain ⟨hreads, hsame, hnumeral⟩ := hf'
    have hne : (before ++ f :: after).map (fun f => f.label.toList ++ f.write l) ≠ [] := by simp
    have hread := readFields_cons hreads hi hb hnumeral
      (s := [' '] ++ [' '].intercalate ((before ++ f :: after).map fun f => f.label.toList ++ f.write l))
      (by rintro c ⟨⟩; decide) (before ++ f :: after) l₀
    rw [ih hstart _ rfl] at hread
    rw [List.cons_append, List.map_cons, intercalate_cons_of_ne_nil hne, hsame]
    simpa using hread

theorem starts_fields [Scalar σ] [Binary σ] {f : Field σ} (hf : f ∈ fields) : Starts f.label.toList := by
  have hlabels : (fields : List (Field σ)).map (·.label) = (format : List (Item σ)).map (·.label) := rfl
  have hmem : f.label ∈ (format : List (Item σ)).map (·.label) := hlabels ▸ List.mem_map_of_mem hf
  obtain ⟨i, hi, hlabel⟩ := List.mem_map.1 hmem
  rw [← hlabel]
  exact starts_format hi

/-- Nor is a line with such a field in it. -/
theorem read?_eq_none [Scalar σ] [Binary σ] {l l' : Line σ} {f : Field σ} {before after : List (Field σ)}
    {items : List (Item σ)} (hfields : fields = before ++ f :: after)
    (hvalue : ∀ rest, NoDigit rest → f.read (f.write l ++ rest) = none)
    (hbefore : List.Forall₂ (fun f i => Reads f i ∧ Writes l l' f i) before items)
    (hitems : ∀ i ∈ items, i ∈ format) {b : List Char} (hb : b.all isBlank = true) :
    (read? (b ++ text l) : Option (Line σ)) = none := by
  have hread := readFields_eq_none (starts_fields (hfields ▸ by simp)) hvalue hbefore
    (fun i hi => starts_format (hitems i hi)) after ⟨0, 0, .blank⟩ hb
  rw [read?, text, hfields, hread]
  rfl

/-- A line whose index does not fit into the signed range is not read. -/
theorem read?_text_eq_none (hlow : 2 ^ 63 ≤ n) (hhigh : n < 2 ^ 64) {b : List Char}
    (hb : b.all isBlank = true) : (read? (b ++ text ⟨n, n, r⟩) : Option (Line Float32)) = none := by
  have hpicture : List.Forall₂ (fun f i => Reads f i ∧ Writes ⟨n, n, r⟩ ⟨n, n, r⟩ f i) [.picture] [.picture] :=
    .cons ⟨reads_picture, writes_picture hhigh rfl⟩ .nil
  have hposition (rest : List Char) (hrest : NoDigit rest) :
      (Field.position : Field Float32).read (Field.position.write (⟨n, n, r⟩ : Line Float32) ++ rest) = none := by
    have hwrite : Field.position.write (⟨n, n, r⟩ : Line Float32) = natText n := rfl
    have hrun := readInt_run (-9223372036854775808) 9223372036854775807 .none (isRun_natText n) hrest
    rw [List.nil_append, ofDigits_natText] at hrun
    simp only [Bool.false_eq_true, if_false] at hrun
    rw [if_neg (by omega)] at hrun
    rw [hwrite]
    simp only [Field.position, readInt64, hrun, Option.map_none]
  exact read?_eq_none rfl hposition hpicture (by simp [format]) hb

/-- No label has a semicolon, and no field writes one, if the quantizer does not. -/
theorem not_mem_text (hquantizer : ';' ∉ quantizerText r.quantizer) : ';' ∉ text ⟨n, n, r⟩ := by
  have hnat (n : Nat) : ';' ∉ natText n := (isRun_natText n).2.not_mem
  have hint (n : Int) : ';' ∉ intText n := by
    obtain ⟨g, negative, hg, htext, -⟩ := intText_spec n
    rw [htext, List.mem_append]
    exact not_or.2 ⟨hg.not_mem, hnat _⟩
  have hfields : ∀ f ∈ (fields : List (Field Float32)),
      ';' ∉ f.label.toList ∧ ';' ∉ f.write ⟨n, n, r⟩ := by
    simp [fields, Field.picture, Field.position, Field.pictureType, Field.quantizer, Field.int32, Field.int64,
      hnat, hint, hquantizer]
  obtain ⟨f, fs, hcons⟩ : ∃ f fs, (fields : List (Field Float32)) = f :: fs := ⟨_, _, rfl⟩
  rw [hcons] at hfields
  obtain ⟨hf, hfs⟩ := List.forall_mem_cons.1 hfields
  rw [text, hcons, List.map_cons, intercalate_cons_eq]
  simp only [List.mem_append, List.mem_flatMap, List.mem_map, not_or]
  refine ⟨hf, ?_⟩
  rintro ⟨_, ⟨f, hmem, rfl⟩, h⟩
  simp only [List.mem_append] at h
  obtain hblank | hlabel | hwrite := h
  · exact absurd hblank (by decide)
  · exact (hfs f hmem).1 hlabel
  · exact (hfs f hmem).2 hwrite

end Line

-- ---------------------------------------------------------------------------
-- Logs
-- ---------------------------------------------------------------------------

namespace Log

variable {δ : Type}

/-- The segment is the written line of the picture, with blanks in front. -/
def Holds (s : List Char) (p : Nat × Record Float32) : Prop :=
  ∃ b, b.all Line.isBlank = true ∧ s = b ++ Line.text ⟨p.1, p.1, p.2⟩

/-- The text of lines, with blanks in front, is cut into one segment for each: all but the first have the line
    end of the line before in front. -/
theorem exists_segments {lines : List (Nat × Record Float32)} (hne : lines ≠ []) {b : List Char}
    (hb : b.all Line.isBlank = true) :
    ∃ segs, b ++ (text ⟨lines⟩).toList = ended segs ++ ['\n'] ∧ List.Forall₂ Holds segs lines := by
  induction lines generalizing b with
  | nil => exact absurd rfl hne
  | cons p lines ih =>
    have htext : b ++ (text ⟨p :: lines⟩).toList =
        b ++ Line.text ⟨p.1, p.1, p.2⟩ ++ [';'] ++ (['\n'] ++ (text ⟨lines⟩).toList) := by
      simp [text, String.toList_join, Line.logText]
    cases lines with
    | nil =>
      refine ⟨[b ++ Line.text ⟨p.1, p.1, p.2⟩], ?_, .cons ⟨b, hb, rfl⟩ .nil⟩
      rw [htext]
      simp [ended, text]
    | cons p' lines =>
      obtain ⟨segs, hsegs, hholds⟩ := ih (by simp) (b := ['\n']) rfl
      refine ⟨(b ++ Line.text ⟨p.1, p.1, p.2⟩) :: segs, ?_, .cons ⟨b, hb, rfl⟩ hholds⟩
      rw [htext, hsegs]
      simp [ended]

/-- What is known of the lines is known along with the segments that hold them. -/
theorem forall₂_holds_and {P : Nat × Record Float32 → Prop} {segs : List (List Char)}
    {lines : List (Nat × Record Float32)} (h : List.Forall₂ Holds segs lines) (hP : ∀ p ∈ lines, P p) :
    List.Forall₂ (fun s p => P p ∧ Holds s p) segs lines :=
  List.Forall₂.flip ((List.forall₂_and_left _ _).2 ⟨hP, List.Forall₂.flip h⟩)

theorem forall_of_holds {P : Nat × Record Float32 → Prop} {Q : List Char → Prop} {segs : List (List Char)}
    {lines : List (Nat × Record Float32)} (h : List.Forall₂ Holds segs lines) (hP : ∀ p ∈ lines, P p)
    (hQ : ∀ s p, P p → Holds s p → Q s) : ∀ s ∈ segs, Q s :=
  ((List.forall₂_and_left _ _).1 ((forall₂_holds_and h hP).imp fun s p hp => ⟨hQ s p hp.1 hp.2, hp.2⟩)).1

theorem Holds.not_mem_of_quantizer {s : List Char} {p : Nat × Record Float32}
    (hq : ';' ∉ Line.quantizerText p.2.quantizer) (h : Holds s p) : ';' ∉ s := by
  obtain ⟨b, hb, rfl⟩ := h
  rw [List.mem_append, not_or]
  exact ⟨fun hmem => absurd (List.all_eq_true.1 hb _ hmem) (by decide), Line.not_mem_text hq⟩

theorem Holds.not_mem {s : List Char} {p : Nat × Record Float32}
    (hq : Scalar.isFinite p.2.quantizer = true ∨ p.2.quantizer = 1.0 / 0.0) (h : Holds s p) : ';' ∉ s :=
  h.not_mem_of_quantizer (Line.numeral_quantizerText hq).not_mem

theorem Holds.form {s : List Char} {p : Nat × Record Float32} (hn : p.1 < 2 ^ 63)
    (hq : Scalar.isFinite p.2.quantizer = true ∨ p.2.quantizer = 1.0 / 0.0) (h : Holds s p) :
    Line.Form s p.1 (Line.unplanned p.2) := by
  obtain ⟨b, hb, rfl⟩ := h
  exact Line.form_text hn hq hb

/-- The log as it is read back: its records have no plan. -/
def unplanned (log : Log Float32) : Log Float32 := ⟨log.lines.map fun p => (p.1, Line.unplanned p.2)⟩

variable {log : Log Float32}

/-- A log is read back while all its indices lie below `2 ^ 63`. Otherwise its first line with another index is
    the corrupted one. -/
theorem read_text (hne : log.lines ≠ []) (hindex : ∀ p ∈ log.lines, p.1 < 2 ^ 64)
    (hq : ∀ p ∈ log.lines, Scalar.isFinite p.2.quantizer = true ∨ p.2.quantizer = 1.0 / 0.0) :
    ((∀ p ∈ log.lines, p.1 < 2 ^ 63) →
      read log.text = (.ok log.unplanned : Except (Fault Float32 δ) _)) ∧
    ∀ before p after, log.lines = before ++ p :: after → (∀ p' ∈ before, p'.1 < 2 ^ 63) → 2 ^ 63 ≤ p.1 →
      read log.text = (.error (.corruptedStatistics before.length) : Except (Fault Float32 δ) _) := by
  obtain ⟨segs, htext, hholds⟩ := exists_segments hne (b := []) rfl
  have hsegs : ∀ s ∈ segs, ';' ∉ s := forall_of_holds hholds hq fun _ _ => Holds.not_mem
  have hne' : segs ≠ [] := by
    rintro rfl
    exact hne (List.forall₂_nil_left_iff.1 hholds)
  have hread := read_ended (σ := Float32) (δ := δ) htext hsegs (by decide) hne'
  constructor
  · intro hlow
    have hforms : List.Forall₂ (fun s p => Line.Form s p.1 p.2) segs log.unplanned.lines := by
      rw [unplanned, List.forall₂_map_right_iff]
      have hgood : ∀ p ∈ log.lines, p.1 < 2 ^ 63 ∧
          (Scalar.isFinite p.2.quantizer = true ∨ p.2.quantizer = 1.0 / 0.0) :=
        fun p hp => ⟨hlow p hp, hq p hp⟩
      exact (forall₂_holds_and hholds hgood).imp fun s p hp => hp.2.form hp.1.1 hp.1.2
    exact hread.trans (map_eq_ok.2 ⟨_, readSegments_eq_ok.2 hforms, rfl⟩)
  · intro before p after hlines hlow hhigh
    rw [hlines] at hholds hindex hq
    have hbefore := List.forall₂_take_append _ _ _ hholds
    have hrest := List.forall₂_drop_append _ _ _ hholds
    obtain ⟨s, after', ⟨b, hb, hs⟩, -, hdrop⟩ := List.forall₂_cons_right_iff.1 hrest
    have hgood : ∀ p' ∈ before, p'.1 < 2 ^ 63 ∧
        (Scalar.isFinite p'.2.quantizer = true ∨ p'.2.quantizer = 1.0 / 0.0) :=
      fun p' hp' => ⟨hlow p' hp', hq p' (List.mem_append_left _ hp')⟩
    have hform : ∀ s ∈ segs.take before.length, IsLine Float32 s :=
      forall_of_holds hbefore hgood fun s p' hp' hs => ⟨p'.1, Line.unplanned p'.2, hs.form hp'.1 hp'.2⟩
    have hnot : ¬ IsLine Float32 s := by
      rw [hs]
      exact not_isLine_of_read? (Line.read?_text_eq_none hhigh (hindex p (by simp)) hb)
    refine hread.trans (map_eq_error.2 (readSegments_eq_error.2
      ⟨segs.take before.length, s, after', ?_, hform, hnot, ?_⟩))
    · rw [← hdrop, List.take_append_drop]
    · rw [hbefore.length_eq, Nat.zero_add]

theorem read_text_two_lines :
    let line (n : Nat) (q : Float32) : Nat × Record Float32 :=
      (n, { quantizer := q, plannedQuantizer := 354.0, mcVarSum := -9223372036854775808 })
    let log : Log Float32 := ⟨[line 0 (-0.0), line 9223372036854775807 (1.0 / 0.0)]⟩
    log.lines ≠ [] ∧ (∀ p ∈ log.lines, p.1 < 2 ^ 63) ∧
      (∀ p ∈ log.lines, Scalar.isFinite p.2.quantizer = true ∨ p.2.quantizer = 1.0 / 0.0) ∧
      read log.text = (.ok log.unplanned : Except (Fault Float32 Float) _) := by
  intro line log
  have hne : log.lines ≠ [] := by simp [log]
  have hlow : ∀ p ∈ log.lines, p.1 < 2 ^ 63 := by decide
  have hindex : ∀ p ∈ log.lines, p.1 < 2 ^ 64 := by decide
  have hq : ∀ p ∈ log.lines, Scalar.isFinite p.2.quantizer = true ∨ p.2.quantizer = 1.0 / 0.0 :=
    List.forall_mem_cons.2 ⟨.inl (by decide +kernel), List.forall_mem_singleton.2 (.inr rfl)⟩
  exact ⟨hne, hlow, hq, (read_text hne hindex hq).1 hlow⟩

/-- The first index that is not read back. -/
theorem not_read_text_of_index :
    let record : Record Float32 := { quantizer := 236.0, plannedQuantizer := 236.0 }
    let log : Log Float32 := ⟨[(9223372036854775808, record)]⟩
    Scalar.isFinite record.quantizer = true ∧
      (read log.text : Except (Fault Float32 Float) (Log Float32)).toOption.isNone = true := by
  decide +kernel

end Log
end RateControl
