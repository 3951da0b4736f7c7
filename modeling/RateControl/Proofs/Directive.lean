-- SUMMARY: The reader of directives accepts exactly the lists of number triples, and reads every written list back.
import Mathlib.Data.List.Forall2
import RateControl.Policy
import RateControl.Proofs.Numeral.Writing

/-! # Lists of directives

A directive is three numerals with commas between them, and a list is one or more directives with slashes between
them. No numeral has a comma or a slash in it, so a text is such a list in one way at most. -/

namespace RateControl

/-- A list of options has a value in each place, or none as a whole. -/
theorem mapM_eq_some_iff {α β : Type} {f : α → Option β} {l : List α} {bs : List β} :
    l.mapM f = some bs ↔ List.Forall₂ (fun a b => f a = some b) l bs := by
  induction l generalizing bs with
  | nil => simp [List.forall₂_nil_left_iff, eq_comm]
  | cons a rest ih =>
    simp only [List.mapM_cons, List.forall₂_cons_left_iff, ← ih, Option.bind_eq_bind, Option.bind_eq_some_iff,
      Option.pure_def, Option.some.injEq]
    constructor
    · rintro ⟨b, hb, bs', hbs, rfl⟩
      exact ⟨b, bs', hb, hbs, rfl⟩
    · rintro ⟨b, bs', hb, hbs, rfl⟩
      exact ⟨b, hb, bs', hbs, rfl⟩

namespace Directive

open Numeral

variable {σ : Type}

/-! ## Numbers -/

/-- A numeral of the signed 32-bit range, and its number. -/
def NumberText (u : List Char) (n : Int32) : Prop := IntNumeral (-2147483648) 2147483647 u n.toInt

theorem readNumber?_eq_some {u : List Char} {n : Int32} : readNumber? u = some n ↔ NumberText u n := by
  unfold readNumber?
  constructor
  · intro h
    split at h
    · next m hread =>
      cases h
      obtain ⟨v, hv, rfl⟩ := readInt32_eq_some hread
      rwa [List.append_nil]
    · cases h
  · intro h
    have hread : readInt32 (u ++ []) = some (n, []) := readInt32_append h (by simp [NoDigit])
    rw [List.append_nil] at hread
    rw [hread]

theorem numberText_intText (n : Int32) : NumberText (intText n.toInt) n :=
  intNumeral_intText n.le_toInt (Int.le_of_lt_add_one n.toInt_lt)

/-- The characters of a number are digits and signs. -/
theorem NumberText.not_mem {u : List Char} {n : Int32} (h : NumberText u n) {c : Char}
    (hc : c.isDigit = false ∧ c ≠ '+' ∧ c ≠ '-') : c ∉ u := by
  obtain ⟨hdigit, hplus, hminus⟩ := hc
  cases h with
  | intro hg hrun _ _ _ =>
    have hds (hmem : c ∈ _) : False := Bool.false_ne_true (hdigit.symm.trans (hrun.2 c hmem))
    cases hg <;> simpa [hplus, hminus] using hds

/-! ## Directives -/

variable [Scalar σ]

/-- What the third number of a directive orders: a positive one forces itself as the quantizer, any other scales
    the bits by its percentage, the sign changed. -/
inductive Orders (q : Int32) : Action σ → Prop
  | force : 0 < q.toInt → Orders q (.force q)
  | scale : q.toInt ≤ 0 → Orders q (.scale (Scalar.ofInt (-q.toInt) / 100.0))

theorem orders_iff {q : Int32} {a : Action σ} : Orders q a ↔ a = actionOf q := by
  have hpos : 0 < q ↔ 0 < q.toInt := Int32.lt_iff_toInt_lt
  unfold actionOf
  constructor
  · rintro (h | h)
    · rw [if_pos (hpos.2 h)]
    · rw [if_neg fun h' => absurd (hpos.1 h') (by omega)]
  · rintro rfl
    split
    · next h => exact .force (hpos.1 h)
    · next h => exact .scale (by rw [hpos] at h; omega)

/-- A directive says what three numbers do: the ends of its range, and what it orders. -/
structure Denotes (n : Int32 × Int32 × Int32) (d : Directive σ) : Prop where
  first_eq : d.first = n.1
  last_eq : d.last = n.2.1
  orders : Orders n.2.2 d.action

theorem denotes_iff {n : Int32 × Int32 × Int32} {d : Directive σ} :
    Denotes n d ↔ d = ⟨n.1, n.2.1, actionOf n.2.2⟩ := by
  constructor
  · obtain ⟨first, last, action⟩ := d
    rintro ⟨rfl, rfl, horders⟩
    exact congrArg _ (orders_iff.1 horders)
  · rintro rfl
    exact ⟨rfl, rfl, orders_iff.2 rfl⟩

/-- The text of a directive is that of its three numbers with commas between them. -/
inductive ItemText : List Char → Directive σ → Prop
  | intro {n a b u d} : Denotes n d → NumberText a n.1 → NumberText b n.2.1 → NumberText u n.2.2 →
      ItemText ([','].intercalate [a, b, u]) d

theorem readItem?_eq_some {s : List Char} {d : Directive σ} : readItem? s = some d ↔ ItemText s d := by
  constructor
  · intro h
    unfold readItem? at h
    split at h
    · next a b u hsplit =>
      simp only [Option.bind_eq_bind, Option.bind_eq_some_iff, Option.pure_def, Option.some.injEq,
        readNumber?_eq_some] at h
      obtain ⟨first, ha, last, hb, q, hu, rfl⟩ := h
      have hs : [','].intercalate (s.splitOn ',') = s := List.intercalate_splitOn ','
      rw [← hs, hsplit]
      exact .intro (n := (first, last, q)) (denotes_iff.2 rfl) ha hb hu
    · cases h
  · -- A numeral has no comma in it, so the split finds just the three of them.
    rintro ⟨hd, ha, hb, hu⟩
    have hcomma : ∀ v ∈ [_, _, _], ',' ∉ v :=
      List.forall_mem_cons.2 ⟨ha.not_mem (by decide), List.forall_mem_cons.2
        ⟨hb.not_mem (by decide), List.forall_mem_singleton.2 (hu.not_mem (by decide))⟩⟩
    rw [readItem?, List.splitOn_intercalate ',' hcomma (List.cons_ne_nil _ _)]
    simp only [readNumber?_eq_some.2 ha, readNumber?_eq_some.2 hb, readNumber?_eq_some.2 hu, denotes_iff.1 hd]
    rfl

/-- No directive has a slash in it. -/
theorem ItemText.slash_not_mem {s : List Char} {d : Directive σ} (h : ItemText s d) : '/' ∉ s := by
  obtain ⟨-, ha, hb, hu⟩ := h
  simp [List.intercalate, ha.not_mem (c := '/') (by decide), hb.not_mem (c := '/') (by decide),
    hu.not_mem (c := '/') (by decide)]

/-! ## Lists -/

theorem readList?_eq_some {t : String} {ds : List (Directive σ)} :
    readList? t = some ds ↔
      ∃ items, items ≠ [] ∧ t.toList = ['/'].intercalate items ∧ List.Forall₂ ItemText items ds := by
  simp only [readList?, mapM_eq_some_iff, readItem?_eq_some]
  constructor
  · intro h
    exact ⟨_, List.splitOn_ne_nil _ _, (List.intercalate_splitOn '/').symm, h⟩
  · rintro ⟨items, hne, ht, h⟩
    have hslash : ∀ s ∈ items, '/' ∉ s := by
      clear hne ht
      induction h with
      | nil => simp
      | cons hitem _ ih => exact List.forall_mem_cons.2 ⟨hitem.slash_not_mem, ih⟩
    rwa [ht, List.splitOn_intercalate '/' hslash hne]

/-- A directive that was read is the order of some number. -/
theorem orders_of_readDirectives {δ : Type} [Scalar δ] {s : Settings σ} {ds : List (Directive σ)}
    (h : (Policy.readDirectives s : Except (Fault σ δ) _) = .ok ds) : ∀ d ∈ ds, ∃ q, Orders q d.action := by
  unfold Policy.readDirectives at h
  split at h
  · cases h
    simp
  · split at h
    · next hread =>
      cases h
      obtain ⟨items, -, -, hitems⟩ := readList?_eq_some.1 hread
      clear hread
      induction hitems with
      | nil => simp
      | cons hitem _ ih =>
        obtain ⟨hd, -, -, -⟩ := hitem
        exact List.forall_mem_cons.2 ⟨⟨_, hd.orders⟩, ih⟩
    · cases h

/-- The text of three numbers. -/
def itemText (n : Int32 × Int32 × Int32) : List Char :=
  [','].intercalate [intText n.1.toInt, intText n.2.1.toInt, intText n.2.2.toInt]

/-- The text of a list of number triples. -/
def listText (ns : List (Int32 × Int32 × Int32)) : String := .ofList (['/'].intercalate (ns.map itemText))

/-- A text is read as a list of directives just if it is one or more texts of directives with slashes between
    them, and these directives come out in their order. So a written list of number triples is read as what its
    numbers denote. Any other text is a fault that names it. -/
theorem reads_exactly_lists {δ : Type} [Scalar δ] :
    (∀ (t : String) (ds : List (Directive σ)), readList? t = some ds ↔
      ∃ items, items ≠ [] ∧ t.toList = ['/'].intercalate items ∧ List.Forall₂ ItemText items ds) ∧
    (∀ ns : List (Int32 × Int32 × Int32), ns ≠ [] →
      ∃ ds : List (Directive σ), readList? (listText ns) = some ds ∧ List.Forall₂ Denotes ns ds) ∧
    ∀ (s : Settings σ) (t : String), s.directives = some t → (readList? t : Option (List (Directive σ))) = none →
      (Policy.readDirectives s : Except (Fault σ δ) _) = .error (.invalidDirectives t) := by
  refine ⟨fun t ds => readList?_eq_some, fun ns hne => ?_, fun s t ht hread => ?_⟩
  · refine ⟨ns.map fun n => ⟨n.1, n.2.1, actionOf n.2.2⟩, readList?_eq_some.2 ⟨ns.map itemText, ?_, ?_, ?_⟩, ?_⟩
    · simpa using hne
    · simp [listText]
    · rw [List.forall₂_map_left_iff, List.forall₂_map_right_iff]
      exact List.forall₂_same.2 fun n _ =>
        .intro (denotes_iff.2 rfl) (numberText_intText _) (numberText_intText _) (numberText_intText _)
    · rw [List.forall₂_map_right_iff]
      exact List.forall₂_same.2 fun n _ => denotes_iff.2 rfl
  · simp [Policy.readDirectives, ht, hread]

/-- Three directives, the last with the least number there is, and a list that ends with a slash. -/
theorem reads_exactly_lists_three_directives :
    let ns : List (Int32 × Int32 × Int32) := [(0, 10, 5), (11, 20, -50), (30, 30, -2147483648)]
    let settings : Settings Float32 := { Settings.standard with directives := some "1,2,3/" }
    listText ns = "0,10,5/11,20,-50/30,30,-2147483648" ∧
    (∃ ds : List (Directive Float32),
      readList? "0,10,5/11,20,-50/30,30,-2147483648" = some ds ∧ List.Forall₂ Denotes ns ds) ∧
    (Policy.readDirectives settings : Except (Fault Float32 Float) _) = .error (.invalidDirectives "1,2,3/") := by
  intro ns settings
  have htext : listText ns = "0,10,5/11,20,-50/30,30,-2147483648" := by decide
  have hnone : (readList? "1,2,3/" : Option (List (Directive Float32))) = none := by decide +kernel
  obtain ⟨-, hwritten, hfault⟩ := reads_exactly_lists (σ := Float32) (δ := Float)
  exact ⟨htext, htext ▸ hwritten ns (by simp [ns]), hfault settings _ rfl hnone⟩

end Directive
end RateControl
