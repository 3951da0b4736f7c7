-- SUMMARY: The decoder buffer refines its rules in whole bits picture by picture, and keeps account of every bit along a run.
import RateControl.Proofs.Buffer.Bounds

/-! # Balance of the decoder buffer

While stuffing can take what the channel brings at its least rate, the buffer holds a whole number of bits from 0
up to its size behind every picture, so that nothing is rounded. What it holds is then what it held at the start
and what the channel brought, less pictures and stuffing, unless bits are lost: a picture that the buffer cannot
supply, or stuffing that takes more than there is. -/

namespace RateControl.Buffer

open Binary (HasValue hasValue_zero)

-- ---------------------------------------------------------------------------
-- Accounts
-- ---------------------------------------------------------------------------

/-- The bits that the channel brings along pictures. -/
def refilled (b : Buffer Float) : List Int64 → Int
  | []        => 0
  | n :: rest => (b.drained n.toInt).1.refill + (b.next n.toInt).2.refilled rest

/-- The stuffing bytes along pictures. -/
def stuffed (b : Buffer Float) : List Int64 → Int
  | []        => 0
  | n :: rest => (b.next n.toInt).1 + (b.next n.toInt).2.stuffed rest

/-- Along pictures the buffer does not run dry, and stuffing takes no more than there is. -/
def Lossless (b : Buffer Float) : List Int64 → Prop
  | []        => True
  | n :: rest =>
    (b.drained n.toInt).2 = false ∧
      (0.0 : Float) ≤ (b.filled n.toInt).occupancy - 8.0 * Scalar.ofInt (b.next n.toInt).1 ∧
      (b.next n.toInt).2.Lossless rest

/-- The buffer holds this whole number of bits, which is within its size. -/
structure Holds (b : Buffer Float) (level : Int) : Prop where
  value : HasValue b.occupancy level
  nonneg : 0 ≤ level
  le_size : level ≤ b.whole.size

variable {b : Buffer Float} {level bits : Int}

theorem Holds.neg_two_pow_le (h : b.Holds level) : -2 ^ 31 ≤ level := by
  have := h.nonneg
  omega

-- ---------------------------------------------------------------------------
-- Steps
-- ---------------------------------------------------------------------------

/-- A buffer that did not run dry had what the picture took. -/
theorem Holds.le_of_drained (h : b.Holds level) (hbits : 0 ≤ bits) (hlt : bits < 2 ^ 63)
    (hdry : (b.drained bits).2 = false) : bits ≤ level := by
  by_contra! hless
  rw [drained, if_pos (runs_dry h.value h.neg_two_pow_le h.le_size hless hbits hlt)] at hdry
  cases hdry

/-- One picture, by the rules for whole bits: it leaves `o` bits, which fit, or else the least stuffing that covers
    what does not fit is taken from them. -/
theorem Holds.turn {w : WholeBuffer} (h : b.Holds level) (hw : b.whole = w) (hvalid : w.Valid)
    (hleast : w.least ≤ 8 * WholeBuffer.maxStuffing) (hbits : 0 ≤ bits) (hlt : bits < 2 ^ 63) :
    let o := w.filled level bits
    (b.drained bits).1.refill = w.refill (WholeBuffer.drained level bits) ∧
    (o ≤ w.size → (b.next bits).1 = 0 ∧ HasValue (b.next bits).2.occupancy o) ∧
    (w.size < o → IsLeast {n | w.minStuffing ≤ n ∧ o - 8 * n ≤ w.size} (b.next bits).1 ∧
      HasValue (b.next bits).2.occupancy (max (o - 8 * (b.next bits).1) 0 : Int)) := by
  subst hw
  intro o
  obtain ⟨hstuffing, hnext⟩ := next_at hvalid (least_lt hleast) h.value h.neg_two_pow_le h.le_size hbits hlt
  rw [hstuffing]
  refine ⟨refill_drained hvalid h.value h.neg_two_pow_le h.le_size hbits hlt, fun hfits => ?_, fun hover => ?_⟩
  · rw [WholeBuffer.update_of_le hfits] at hnext ⊢
    exact ⟨rfl, hnext⟩
  · rw [WholeBuffer.update_of_lt hover] at hnext ⊢
    exact ⟨hvalid.isLeast_stuffing hleast hbits h.le_size hover, hnext⟩

/-- Stuffing that leaves no less than nothing takes no more than there is. -/
theorem Holds.stuffing_le (h : b.Holds level) (hvalid : b.whole.Valid) (hleast : b.whole.least < 2 ^ 52)
    (hbits : 0 ≤ bits) (hlt : bits < 2 ^ 63)
    (hleft : (0.0 : Float) ≤ (b.filled bits).occupancy - 8.0 * Scalar.ofInt (b.next bits).1) :
    8 * (b.whole.update level bits).1 ≤ b.whole.filled level bits := by
  have hsize := b.size_lt
  have hfilled := hasValue_filled hvalid hleast h.value h.neg_two_pow_le h.le_size hbits hlt
  obtain ⟨hnonneg, hle⟩ := hvalid.filled_bounds hbits h.le_size
  obtain ⟨hstuffing, -⟩ := next_at hvalid hleast h.value h.neg_two_pow_le h.le_size hbits hlt
  rw [hstuffing] at hleft
  by_cases hover : b.whole.size < b.whole.filled level bits
  · rw [WholeBuffer.update_of_lt hover] at hleft ⊢
    rw [hasValue_zero.le_iff (hasValue_unstuffed hvalid hfilled (by omega) (by omega) hover)] at hleft
    have hleft : 0 ≤ b.whole.filled level bits - 8 * b.whole.stuffing (b.whole.filled level bits) := by
      exact_mod_cast hleft
    dsimp only
    omega
  · rw [WholeBuffer.update_of_le (not_lt.1 hover)]
    exact hnonneg

/-- Behind a picture the buffer holds what the rules for whole bits say, and if nothing was lost this is the
    balance of the picture. -/
theorem Holds.next (h : b.Holds level) (hvalid : b.whole.Valid)
    (hleast : b.whole.least ≤ 8 * WholeBuffer.maxStuffing) (hbits : 0 ≤ bits) (hlt : bits < 2 ^ 63) :
    (b.next bits).2.Holds (b.whole.update level bits).2 ∧
      ((b.drained bits).2 = false →
        (0.0 : Float) ≤ (b.filled bits).occupancy - 8.0 * Scalar.ofInt (b.next bits).1 →
        (b.whole.update level bits).2 = level + (b.drained bits).1.refill - bits - 8 * (b.next bits).1) := by
  obtain ⟨hstuffing, hnext⟩ := next_at hvalid (least_lt hleast) h.value h.neg_two_pow_le h.le_size hbits hlt
  obtain ⟨hlow, hhigh, -⟩ := hvalid.update_bounds hleast hbits h.le_size
  refine ⟨⟨hnext, hlow, by rwa [whole_next]⟩, fun hdry hleft => ?_⟩
  have hcovered := h.stuffing_le hvalid (least_lt hleast) hbits hlt hleft
  rw [refill_drained hvalid h.value h.neg_two_pow_le h.le_size hbits hlt, hstuffing]
  exact WholeBuffer.update_balance (h.le_of_drained hbits hlt hdry) hcovered

-- ---------------------------------------------------------------------------
-- Runs
-- ---------------------------------------------------------------------------

/-- Behind pictures the buffer holds whole bits within its size, and if none were lost these are the balance of
    the accounts. -/
theorem Holds.after {start : Int} (h : b.Holds start) (hvalid : b.whole.Valid)
    (hleast : b.whole.least ≤ 8 * WholeBuffer.maxStuffing) {sizes : List Int64}
    (hsizes : ∀ n ∈ sizes, 0 ≤ n.toInt) :
    ∃ level, (b.after sizes).Holds level ∧
      (b.Lossless sizes →
        level = start + b.refilled sizes - (sizes.map Int64.toInt).sum - 8 * b.stuffed sizes) := by
  induction sizes generalizing b start with
  | nil => exact ⟨start, h, fun _ => by simp [refilled, stuffed]⟩
  | cons n sizes ih =>
    obtain ⟨hn, hsizes⟩ := List.forall_mem_cons.1 hsizes
    obtain ⟨hnext, hstep⟩ := h.next hvalid hleast hn n.toInt_lt
    obtain ⟨level, hlevel, hrun⟩ := ih hnext (by rwa [whole_next]) (by rwa [whole_next]) hsizes
    refine ⟨level, hlevel, fun hlossless => ?_⟩
    obtain ⟨hdry, hleft, hrest⟩ := hlossless
    have hstep := hstep hdry hleft
    have hrun := hrun hrest
    rw [refilled, stuffed, List.map_cons, List.sum_cons]
    omega

-- ---------------------------------------------------------------------------
-- Buffers of valid settings
-- ---------------------------------------------------------------------------

variable {s : Settings Float32} {secondPass : Bool}

/-- At the start the buffer holds no less than nothing if the settings do not say otherwise. -/
theorem holds_ofSettings (hvalid : s.violation? secondPass = none) (hsize : 0 < s.bufferSize.toInt)
    (hinitial : 0 ≤ s.initialOccupancy.toInt) :
    ∃ level, (ofSettings s : Buffer Float).Holds level := by
  have hle := s.initialOccupancy_le hvalid
  refine ⟨_, hasValue_initial hsize, ?_, ?_⟩
  · split <;> omega
  · change _ ≤ s.bufferSize.toInt
    split <;> omega

/-- The buffer of valid settings refines its rules in whole bits, and conserves them. Behind every run of pictures
    it holds a whole number of bits from 0 up to its size. The next picture leaves `d` of them, and the channel
    brings `r`: if these fit there is no stuffing, and otherwise it is the least that covers what does not fit. This
    takes a least rate that brings more than there is room for. Along a run that loses nothing, what is there in
    the end is what there was, with all that the channel brought, without all pictures and stuffing. -/
theorem refines_and_conserves (hvalid : s.violation? secondPass = none) (hsize : 0 < s.bufferSize.toInt)
    (hinitial : 0 ≤ s.initialOccupancy.toInt)
    (hleast : Scalar.toInt64 (ofSettings s : Buffer Float).minRate ≤ 2 ^ 34 - 8)
    {sizes : List Int64} (hsizes : ∀ n ∈ sizes, 0 ≤ n.toInt) :
    let b : Buffer Float := ofSettings s
    let B := s.bufferSize.toInt
    let m := Scalar.toInt64 b.minRate
    let M := Scalar.toInt64 b.maxRate
    ∃ start level : Int, HasValue b.occupancy start ∧ HasValue (b.after sizes).occupancy level ∧
      0 ≤ level ∧ level ≤ B ∧
      (b.Lossless sizes →
        level = start + b.refilled sizes - (sizes.map Int64.toInt).sum - 8 * b.stuffed sizes) ∧
      ∀ n : Int64, 0 ≤ n.toInt →
        let d := max (level - n.toInt) 0
        let r := if B - 1 - d < m then m else min (B - 1 - d) M
        let o := d + r
        let stuffing := ((b.after sizes).next n.toInt).1
        let left := ((b.after sizes).next n.toInt).2.occupancy
        ((b.after sizes).drained n.toInt).1.refill = r ∧
        (o ≤ B → stuffing = 0 ∧ HasValue left o) ∧
        (B < o → IsLeast {k | s.minStuffing.toInt ≤ k ∧ o - 8 * k ≤ B} stuffing ∧
          HasValue left (max (o - 8 * stuffing) 0 : Int)) ∧
        (stuffing ≠ 0 → B - 1 - d < m) ∧
        (m = 0 → stuffing = 0) := by
  intro b B m M
  have hwhole : b.whole.Valid := valid_ofSettings hvalid hsize
  have hmax : b.whole.least ≤ 8 * WholeBuffer.maxStuffing := hleast
  obtain ⟨start, hstart⟩ := holds_ofSettings hvalid hsize hinitial
  obtain ⟨level, hlevel, hbalance⟩ := hstart.after hwhole hmax hsizes
  have hlevelB : level ≤ B := hlevel.le_size.trans_eq (congrArg WholeBuffer.size (whole_after b sizes))
  refine ⟨start, level, hstart.value, hlevel.value, hlevel.nonneg, hlevelB, hbalance, fun n hn => ?_⟩
  intro d r o stuffing left
  obtain ⟨hrefill, hfits, hover⟩ := hlevel.turn (whole_after b sizes) hwhole hmax hn n.toInt_lt
  have hr : b.whole.refill d = r := b.whole.refill_eq_min d
  have ho : b.whole.filled level n.toInt = o := congrArg (d + ·) hr
  have hforced (h : stuffing ≠ 0) : B < o := by
    by_contra! hle
    exact h (hfits (ho.trans_le hle)).1
  rw [ho] at hfits hover
  refine ⟨hrefill.trans hr, hfits, hover, fun h => ?_, fun hm => ?_⟩
  · exact WholeBuffer.room_lt_of_overflow ((hforced h).trans_eq ho.symm)
  · by_contra! h
    -- Without a least rate the channel brings nothing where there is no room, and what is left fits.
    have hlt : B < o := hforced h
    have hd : d ≤ B := by omega
    have hroom : B - 1 - d < m := WholeBuffer.room_lt_of_overflow (hlt.trans_eq ho.symm)
    have hnone : r = m := if_pos hroom
    omega

/-- Two pictures that the least rate makes overflow. -/
theorem refines_and_conserves_two_pictures :
    let settings : Settings Float32 :=
      { Settings.standard with bufferSize := 1000, minRate := 50000, maxRate := 400000 }
    let b : Buffer Float := ofSettings settings
    settings.violation? false = none ∧ Scalar.toInt64 b.minRate = 2000 ∧ b.Lossless [0, 100] ∧
      ∃ start level : Int, HasValue b.occupancy start ∧ HasValue (b.after [0, 100]).occupancy level ∧
        level = start + 4000 - 100 - 8 * 457 := by
  intro settings b
  have hvalid : settings.violation? false = none := by
    rw [← Option.isNone_iff_eq_none]
    decide +kernel
  have hrate : Scalar.toInt64 b.minRate = 2000 := by decide +kernel
  have hlossless : b.Lossless [0, 100] :=
    ⟨by decide +kernel, by decide +kernel, by decide +kernel, by decide +kernel, trivial⟩
  have hrefilled : b.refilled [0, 100] = 4000 := by decide +kernel
  have hstuffed : b.stuffed [0, 100] = 457 := by decide +kernel
  have hsizes : ∀ n ∈ ([0, 100] : List Int64), 0 ≤ n.toInt := by simp
  obtain ⟨start, level, hstart, hlevel, -, -, hbalance, -⟩ :=
    refines_and_conserves hvalid (by decide) (by decide) (hrate.le.trans (by norm_num)) hsizes
  have hlevel' := hbalance hlossless
  rw [hrefilled, hstuffed] at hlevel'
  exact ⟨hvalid, hrate, hlossless, start, level, hstart, hlevel, hlevel'⟩

end RateControl.Buffer
