-- SUMMARY: The form of a statistics line as a relation between texts and lines, and that the reader takes exactly the texts of this form.
import RateControl.Proofs.Numeral.Lexeme
import RateControl.Statistics.Line

/-! # The form of a line

A line is a row of labels, each with blanks in front of it and directly followed by a numeral of the value
that the line has in this field. The form is said without a reader and without the order of reading: it
relates a text to the line it stands for.

The reader starts from a blank line and puts in one value after the other. It yields the line that the text
stands for since no field touches what an earlier field has put in. -/

namespace RateControl.Line

open Numeral

variable {σ : Type}

-- ---------------------------------------------------------------------------
-- Items
-- ---------------------------------------------------------------------------

/-- A labelled value of a line, with the numerals that stand for it. -/
structure Item (σ : Type) where
  label : String
  Value : Type
  Numeral : List Char → Value → Prop
  get : Line σ → Value
  put : Value → Line σ → Line σ
  get_put : ∀ v l, get (put v l) = v

namespace Item

def picture : Item σ where
  label := "in:"
  Value := Nat
  Numeral := NatNumeral 18446744073709551615
  get l := l.picture
  put n l := { l with picture := n }
  get_put _ _ := rfl

def position : Item σ where
  label := "out:"
  Value := Int
  Numeral := IntNumeral (-9223372036854775808) 9223372036854775807
  get l := l.position
  put n l := { l with position := n }
  get_put _ _ := rfl

/-- A type is written as its code. -/
def pictureType : Item σ where
  label := "type:"
  Value := PictureType
  Numeral u t := ∃ n, IntNumeral (-9223372036854775808) 9223372036854775807 u n ∧
    PictureType.ofCode? n = some t
  get l := l.record.pictureType
  put t l := { l with record := { l.record with pictureType := t } }
  get_put _ _ := rfl

def int32 (label : String) (get : Record σ → Int32) (set : Int32 → Record σ → Record σ)
    (get_set : ∀ n r, get (set n r) = n) : Item σ where
  label := label
  Value := Int32
  Numeral u n := IntNumeral (-2147483648) 2147483647 u n.toInt
  get l := get l.record
  put n l := { l with record := set n l.record }
  get_put n l := get_set n l.record

def int64 (label : String) (get : Record σ → Int64) (set : Int64 → Record σ → Record σ)
    (get_set : ∀ n r, get (set n r) = n) : Item σ where
  label := label
  Value := Int64
  Numeral u n := IntNumeral (-9223372036854775808) 9223372036854775807 u n.toInt
  get l := get l.record
  put n l := { l with record := set n l.record }
  get_put n l := get_set n l.record

/-- Putting in the later value does not touch the earlier one. -/
def Apart (i j : Item σ) : Prop := ∀ v l, i.get (j.put v l) = i.get l

end Item

/-- The text is made of the items with their values in the line. Blanks may stand in front of every label and
    at the end. -/
inductive Written (l : Line σ) : List (Item σ) → List Char → Prop
  | done {b} : b.all isBlank = true → Written l [] b
  | item {b i u is s} : b.all isBlank = true → i.Numeral u (i.get l) → Written l is s →
      Written l (i :: is) (b ++ i.label.toList ++ u ++ s)

-- ---------------------------------------------------------------------------
-- Labels
-- ---------------------------------------------------------------------------

/-- A label starts with a character that is no blank and cannot go on with a number. -/
def Starts (s : List Char) : Prop := ∃ c cs, s = c :: cs ∧ isBlank c = false ∧ Decimal.NoNumber [c]

theorem dropLabel_eq_some {p s rest : List Char} : dropLabel p s = some rest ↔ s = p ++ rest := by
  induction p generalizing s with
  | nil => simp [dropLabel, eq_comm]
  | cons c cs ih =>
    cases s with
    | nil => simp [dropLabel]
    | cons d s =>
      rw [dropLabel]
      split
      · next h => simp [ih, h]
      · next h => simp [Ne.symm h]

theorem dropWhile_isBlank {b s : List Char} (hb : b.all isBlank = true) (hs : Starts s) (rest : List Char) :
    (b ++ s ++ rest).dropWhile isBlank = s ++ rest := by
  obtain ⟨c, cs, rfl, hc, -⟩ := hs
  rw [List.append_assoc, List.dropWhile_append_of_pos (by simpa using hb), List.cons_append,
    List.dropWhile_cons_of_neg (by simp [hc])]

theorem noNumber_blanks {b s : List Char} (hb : b.all isBlank = true) (hs : Decimal.NoNumber s) :
    Decimal.NoNumber (b ++ s) := by
  cases b with
  | nil => exact hs
  | cons c b =>
    have hc : isBlank c = true := List.all_eq_true.1 hb c (by simp)
    simp only [isBlank, decide_eq_true_eq] at hc
    intro d hd
    cases hd
    obtain rfl | rfl | rfl | rfl := hc <;> decide

/-- Whatever follows a numeral of a line does not go on with it. -/
theorem Written.noNumber {l : Line σ} {items : List (Item σ)} {s : List Char} (h : Written l items s)
    (hstart : ∀ i ∈ items, Starts i.label.toList) : Decimal.NoNumber s := by
  cases h with
  | done hb =>
    rw [← List.append_nil s]
    exact noNumber_blanks hb (by simp [Decimal.NoNumber])
  | item hb hu hs =>
    obtain ⟨c, cs, hlabel, -, hc⟩ := hstart _ List.mem_cons_self
    rw [List.append_assoc, List.append_assoc]
    refine noNumber_blanks hb fun d hd => ?_
    rw [hlabel] at hd
    exact hc d hd

-- ---------------------------------------------------------------------------
-- Fields
-- ---------------------------------------------------------------------------

/-- The field reads the numerals of the item, and puts in their values. -/
structure Reads (f : Field σ) (i : Item σ) : Prop where
  label : f.label = i.label
  sound : ∀ {s update rest}, f.read s = some (update, rest) →
    ∃ u v, i.Numeral u v ∧ s = u ++ rest ∧ update = i.put v
  complete : ∀ {u v rest}, i.Numeral u v → Decimal.NoNumber rest → f.read (u ++ rest) = some (i.put v, rest)

theorem reads_int32 (label : String) (get : Record σ → Int32) (set : Int32 → Record σ → Record σ)
    (get_set : ∀ n r, get (set n r) = n) :
    Reads (Field.int32 label get set) (Item.int32 label get set get_set) where
  label := rfl
  sound h := by
    simp only [Field.int32, Option.map_eq_some_iff] at h
    obtain ⟨⟨n, r⟩, hn, heq⟩ := h
    cases heq
    obtain ⟨u, hu, hs⟩ := readInt32_eq_some hn
    exact ⟨u, n, hu, hs, rfl⟩
  complete h hrest := by
    simp only [Field.int32, readInt32_append h hrest.noDigit, Option.map_some]
    rfl

theorem reads_int64 (label : String) (get : Record σ → Int64) (set : Int64 → Record σ → Record σ)
    (get_set : ∀ n r, get (set n r) = n) :
    Reads (Field.int64 label get set) (Item.int64 label get set get_set) where
  label := rfl
  sound h := by
    simp only [Field.int64, Option.map_eq_some_iff] at h
    obtain ⟨⟨n, r⟩, hn, heq⟩ := h
    cases heq
    obtain ⟨u, hu, hs⟩ := readInt64_eq_some hn
    exact ⟨u, n, hu, hs, rfl⟩
  complete h hrest := by
    simp only [Field.int64, readInt64_append h hrest.noDigit, Option.map_some]
    rfl

theorem reads_picture : Reads (Field.picture (σ := σ)) Item.picture where
  label := rfl
  sound h := by
    simp only [Field.picture, readNat64, Option.map_eq_some_iff] at h
    obtain ⟨⟨n, r⟩, hn, heq⟩ := h
    cases heq
    obtain ⟨u, hu, hs⟩ := readNat_eq_some hn
    exact ⟨u, n, hu, hs, rfl⟩
  complete h hrest := by
    simp only [Field.picture, readNat64, readNat_append h hrest.noDigit, Option.map_some]
    rfl

theorem reads_position : Reads (Field.position (σ := σ)) Item.position where
  label := rfl
  sound h := by
    simp only [Field.position, Option.map_eq_some_iff] at h
    obtain ⟨⟨n, r⟩, hn, heq⟩ := h
    cases heq
    obtain ⟨u, hu, hs⟩ := readInt64_eq_some hn
    exact ⟨u, n.toInt, hu, hs, rfl⟩
  complete h hrest := by
    obtain ⟨n, rfl, hn⟩ := readInt64_append_int h hrest.noDigit
    simp only [Field.position, hn, Option.map_some]
    rfl

theorem reads_pictureType : Reads (Field.pictureType (σ := σ)) Item.pictureType where
  label := rfl
  sound h := by
    simp only [Field.pictureType, Option.bind_eq_bind, Option.bind_eq_some_iff] at h
    obtain ⟨⟨n, r⟩, hn, t, ht, heq⟩ := h
    cases heq
    obtain ⟨u, hu, hs⟩ := readInt64_eq_some hn
    exact ⟨u, t, ⟨n.toInt, hu, ht⟩, hs, rfl⟩
  complete h hrest := by
    obtain ⟨n, hu, ht⟩ := h
    obtain ⟨m, rfl, hm⟩ := readInt64_append_int hu hrest.noDigit
    simp only [Field.pictureType, hm, Option.bind_eq_bind, Option.bind_some, ht]
    rfl

-- ---------------------------------------------------------------------------
-- Rows of fields
-- ---------------------------------------------------------------------------

/-- A relation that the line keeps when fields put their values in. -/
theorem readFields_sound {fs : List (Field σ)} {items : List (Item σ)} (hreads : List.Forall₂ Reads fs items)
    (hapart : items.Pairwise Item.Apart) {l l₀ : Line σ} {s rest : List Char}
    (h : readFields fs l₀ s = some (l, rest)) (hrest : rest.all isBlank = true) :
    Written l items s ∧
      ∀ P : Line σ → Prop, P l₀ → (∀ i ∈ items, ∀ v l, P l → P (i.put v l)) → P l := by
  induction hreads generalizing l₀ s with
  | nil =>
    cases h
    exact ⟨.done hrest, fun P hP _ => hP⟩
  | @cons f i fs items hf hfs ih =>
    obtain ⟨hi, hapart⟩ := List.pairwise_cons.1 hapart
    simp only [readFields, Option.bind_eq_bind, Option.bind_eq_some_iff] at h
    obtain ⟨s₁, hlabel, ⟨update, s₂⟩, hread, h⟩ := h
    obtain ⟨u, v, hu, rfl, rfl⟩ := hf.sound hread
    obtain ⟨hwritten, hkeep⟩ := ih hapart h
    have hget : i.get l = v := hkeep (fun l => i.get l = v) (i.get_put v l₀) fun j hj w l' hl' => by
      rw [hi j hj, hl']
    have htext : s = s.takeWhile isBlank ++ i.label.toList ++ u ++ s₂ := by
      rw [← hf.label, List.append_assoc, List.append_assoc, ← dropLabel_eq_some.1 hlabel,
        List.takeWhile_append_dropWhile]
    refine ⟨?_, fun P hP hput => ?_⟩
    · rw [htext]
      exact .item List.all_takeWhile (by rwa [hget]) hwritten
    · exact hkeep P (hput i (by simp) v l₀ hP) fun j hj => hput j (by simp [hj])

/-- A field takes its label and its numeral. -/
theorem readFields_cons {f : Field σ} {i : Item σ} (hf : Reads f i) (hi : Starts i.label.toList)
    {b u s : List Char} {v : i.Value} (hb : b.all isBlank = true) (hu : i.Numeral u v)
    (hs : Decimal.NoNumber s) (fs : List (Field σ)) (l₀ : Line σ) :
    readFields (f :: fs) l₀ (b ++ i.label.toList ++ u ++ s) = readFields fs (i.put v l₀) s := by
  have hdrop : dropLabel f.label.toList ((b ++ i.label.toList ++ (u ++ s)).dropWhile isBlank) =
      some (u ++ s) := by
    rw [dropWhile_isBlank hb hi, hf.label]
    exact dropLabel_eq_some.2 rfl
  rw [List.append_assoc _ u s]
  simp only [readFields, hdrop, hf.complete hu hs, Option.bind_eq_bind, Option.bind_some]

/-- No fields are read on behind a field that takes nothing. -/
theorem readFields_cons_eq_none {f : Field σ} (hf : Starts f.label.toList) {b s : List Char}
    (hb : b.all isBlank = true) (hs : f.read s = none) (fs : List (Field σ)) (l₀ : Line σ) :
    readFields (f :: fs) l₀ (b ++ f.label.toList ++ s) = none := by
  have hdrop : dropLabel f.label.toList ((b ++ f.label.toList ++ s).dropWhile isBlank) = some s := by
    rw [dropWhile_isBlank hb hf]
    exact dropLabel_eq_some.2 rfl
  simp only [readFields, hdrop, hs, Option.bind_eq_bind, Option.bind_some, Option.bind_none]

/-- Every value is taken over from the line that the text stands for. -/
theorem readFields_complete {fs : List (Field σ)} {items : List (Item σ)}
    (hreads : List.Forall₂ Reads fs items) (hstart : ∀ i ∈ items, Starts i.label.toList) {l : Line σ}
    {s : List Char} (h : Written l items s) (l₀ : Line σ) :
    ∃ b, b.all isBlank = true ∧
      readFields fs l₀ s = some (items.foldl (fun l' i => i.put (i.get l) l') l₀, b) := by
  induction hreads generalizing l₀ s with
  | nil =>
    cases h with
    | done hb => exact ⟨s, hb, rfl⟩
  | @cons f i fs items hf hfs ih =>
    obtain ⟨hi, hstart⟩ := List.forall_mem_cons.1 hstart
    cases h with
    | item hb hu hs =>
      obtain ⟨b', hb', hread⟩ := ih hstart hs (i.put (i.get l) l₀)
      exact ⟨b', hb', by rw [readFields_cons hf hi hb hu (hs.noNumber hstart), hread, List.foldl_cons]⟩

-- ---------------------------------------------------------------------------
-- Quantizers
-- ---------------------------------------------------------------------------

variable [Scalar σ]

/-- A decimal, or one of the words `nan` and `inf` in any case. -/
inductive QuantizerNumeral : List Char → σ → Prop
  | decimal {g negative u d} : Sign g negative → Decimal.Unsigned negative u d →
      QuantizerNumeral (g ++ u) d.value
  | nan {w} : w.map Char.toLower = ['n', 'a', 'n'] → QuantizerNumeral w (0.0 / 0.0)
  | inf {w} : w.map Char.toLower = ['i', 'n', 'f'] → QuantizerNumeral w (1.0 / 0.0)

def Item.quantizer : Item σ where
  label := "q:"
  Value := σ
  Numeral := QuantizerNumeral
  get l := l.record.quantizer
  put q l := { l with record := { l.record with quantizer := q, plannedQuantizer := q } }
  get_put _ _ := rfl

theorem readWord_eq_some {w s rest : List Char} :
    readWord w s = some rest ↔ ∃ u, u.map Char.toLower = w ∧ s = u ++ rest := by
  unfold readWord
  constructor
  · intro h
    split at h
    · next hw =>
      cases h
      exact ⟨_, hw, (List.take_append_drop _ _).symm⟩
    · cases h
  · rintro ⟨u, rfl, rfl⟩
    simp

/-- A word is no decimal. -/
theorem read_word_eq_none {w rest : List Char} {c : Char} {cs : List Char}
    (hw : w.map Char.toLower = c :: cs) (hc : c ∈ ['n', 'i']) : Decimal.read (w ++ rest) = none := by
  cases w with
  | nil => cases hw
  | cons d ds =>
    have hd : d.toLower = c := (List.cons.inj hw).1
    have hne {d' : Char} (h : d'.toLower ∉ ['n', 'i']) : d ≠ d' := by
      rintro rfl
      exact h (hd ▸ hc)
    have hdigit : d.isDigit = false := by
      by_contra hdigit
      have halpha := not_isAlpha_digit (Bool.not_eq_false _ ▸ hdigit)
      simp only [Char.isAlpha, Bool.or_eq_false_iff, Char.isUpper, decide_eq_false_iff_not] at halpha
      have hsame : d.toLower = d := by
        rw [Char.toLower, dif_neg (by simpa using halpha.1)]
      rw [hsame] at hd
      subst hd
      revert hdigit
      simp at hc
      obtain rfl | rfl := hc <;> decide
    exact Decimal.read_eq_none ⟨hne (by decide), hne (by decide)⟩ ⟨hdigit, hne (by decide)⟩

theorem readQuantizer_eq_some {s rest : List Char} {q : σ} (h : readQuantizer s = some (q, rest)) :
    ∃ u, QuantizerNumeral u q ∧ s = u ++ rest := by
  unfold readQuantizer at h
  split at h
  · next d r hread =>
    cases h
    obtain ⟨g, negative, u, hg, hu, hs⟩ := Decimal.read_eq_some hread
    exact ⟨g ++ u, .decimal hg hu, by simpa using hs⟩
  · split at h
    · next r hnan =>
      cases h
      obtain ⟨u, hu, hs⟩ := readWord_eq_some.1 hnan
      exact ⟨u, .nan hu, hs⟩
    · next r _ hinf =>
      cases h
      obtain ⟨u, hu, hs⟩ := readWord_eq_some.1 hinf
      exact ⟨u, .inf hu, hs⟩
    · cases h

theorem readQuantizer_append {u rest : List Char} {q : σ} (h : QuantizerNumeral u q)
    (hrest : Decimal.NoNumber rest) : readQuantizer (u ++ rest) = some (q, rest) := by
  unfold readQuantizer
  cases h with
  | decimal hg hu => rw [List.append_assoc, Decimal.read_append hg hu hrest]
  | nan hw => rw [read_word_eq_none hw (by simp), readWord_eq_some.2 ⟨u, hw, rfl⟩]
  | inf hw =>
    have hnan : readWord ['n', 'a', 'n'] (u ++ rest) = none := by
      have hlength : u.length = ['n', 'a', 'n'].length := by simpa using congrArg List.length hw
      rw [readWord, List.take_left' hlength, hw]
      rfl
    rw [read_word_eq_none hw (by simp), hnan, readWord_eq_some.2 ⟨u, hw, rfl⟩]

-- ---------------------------------------------------------------------------
-- Lines
-- ---------------------------------------------------------------------------

/-- The items of a line, in their order. -/
def format : List (Item σ) :=
  [.picture,
   .position,
   .pictureType,
   .quantizer,
   .int32 "itex:" (·.intraBits) (fun n r => { r with intraBits := n }) fun _ _ => rfl,
   .int32 "ptex:" (·.predictedBits) (fun n r => { r with predictedBits := n }) fun _ _ => rfl,
   .int32 "mv:" (·.motionBits) (fun n r => { r with motionBits := n }) fun _ _ => rfl,
   .int32 "misc:" (·.miscBits) (fun n r => { r with miscBits := n }) fun _ _ => rfl,
   .int32 "fcode:" (·.forwardCode) (fun n r => { r with forwardCode := n }) fun _ _ => rfl,
   .int32 "bcode:" (·.backwardCode) (fun n r => { r with backwardCode := n }) fun _ _ => rfl,
   .int64 "mc-var:" (·.mcVarSum) (fun n r => { r with mcVarSum := n }) fun _ _ => rfl,
   .int64 "var:" (·.varSum) (fun n r => { r with varSum := n }) fun _ _ => rfl,
   .int32 "icount:" (·.intraCount) (fun n r => { r with intraCount := n }) fun _ _ => rfl,
   .int32 "skipcount:" (·.skipCount) (fun n r => { r with skipCount := n }) fun _ _ => rfl,
   .int32 "hbits:" (·.headerBits) (fun n r => { r with headerBits := n }) fun _ _ => rfl]

/-- The text is a line of the picture `n` with the record `r`, to which there is no plan yet. The position of
    the picture is read and forgotten. -/
def Form (s : List Char) (n : Nat) (r : Record σ) : Prop :=
  (∃ position, Written ⟨n, position, r⟩ format s) ∧ r.plannedQuantizer = r.quantizer ∧ r.plannedBits = 0

theorem apart_format : (format : List (Item σ)).Pairwise Item.Apart := by
  simp [format, Item.Apart, Item.picture, Item.position, Item.pictureType, Item.quantizer, Item.int32,
    Item.int64]

theorem starts_format {i : Item σ} (hi : i ∈ format) : Starts i.label.toList := by
  have h : ∀ label ∈ (format : List (Item σ)).map (·.label), Starts label.toList := by
    simp [format, Item.picture, Item.position, Item.pictureType, Item.quantizer, Item.int32, Item.int64,
      Starts, Decimal.NoNumber, isBlank]
  exact h _ (List.mem_map_of_mem hi)

variable [Binary σ]

theorem reads_quantizer : Reads (Field.quantizer (σ := σ)) Item.quantizer where
  label := rfl
  sound h := by
    simp only [Field.quantizer, Option.map_eq_some_iff] at h
    obtain ⟨⟨q, r⟩, hq, heq⟩ := h
    cases heq
    obtain ⟨u, hu, hs⟩ := readQuantizer_eq_some hq
    exact ⟨u, q, hu, hs, rfl⟩
  complete h hrest := by
    simp only [Field.quantizer, readQuantizer_append h hrest, Option.map_some]
    rfl

theorem reads_format : List.Forall₂ Reads (fields (σ := σ)) format :=
  .cons reads_picture <| .cons reads_position <| .cons reads_pictureType <| .cons reads_quantizer <|
  .cons (reads_int32 ..) <| .cons (reads_int32 ..) <| .cons (reads_int32 ..) <| .cons (reads_int32 ..) <|
  .cons (reads_int32 ..) <| .cons (reads_int32 ..) <| .cons (reads_int64 ..) <| .cons (reads_int64 ..) <|
  .cons (reads_int32 ..) <| .cons (reads_int32 ..) <| .cons (reads_int32 ..) .nil

/-- The reader takes exactly the texts of the form. -/
theorem read?_eq_some_iff {s : List Char} {l : Line σ} : read? s = some l ↔
    Written l format s ∧ l.record.plannedQuantizer = l.record.quantizer ∧ l.record.plannedBits = 0 := by
  constructor
  · intro h
    simp only [read?, Option.bind_eq_bind, Option.bind_eq_some_iff] at h
    obtain ⟨⟨l', rest⟩, hread, _, hguard, heq⟩ := h
    cases heq
    have hrest : rest.all isBlank = true := by
      by_contra hnot
      rw [guard, if_neg hnot] at hguard
      cases hguard
    obtain ⟨hwritten, hkeep⟩ := readFields_sound reads_format apart_format hread hrest
    refine ⟨hwritten, hkeep (fun l => l.record.plannedQuantizer = l.record.quantizer ∧
      l.record.plannedBits = 0) ⟨rfl, rfl⟩ ?_⟩
    simp +contextual [format, Item.picture, Item.position, Item.pictureType, Item.quantizer, Item.int32,
      Item.int64]
  · rintro ⟨hwritten, hquantizer, hbits⟩
    obtain ⟨b, hb, hread⟩ := readFields_complete reads_format (fun i => starts_format) hwritten ⟨0, 0, .blank⟩
    have hline : format.foldl (fun l' i => i.put (i.get l) l') ⟨0, 0, .blank⟩ = l := by
      rcases l with ⟨picture, position, record⟩
      cases record
      cases hquantizer
      cases hbits
      rfl
    simp only [read?, hread, hline, Option.bind_eq_bind, Option.bind_some, hb, guard_true]
    rfl

end RateControl.Line
