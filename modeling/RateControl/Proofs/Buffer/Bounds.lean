-- SUMMARY: The decoder buffer stays within its size in every run, just if stuffing can take what the channel brings at its least rate.
import RateControl.DecoderBuffer
import RateControl.Proofs.Binary.Double
import RateControl.Proofs.Buffer.Whole
import RateControl.Proofs.Validation

/-! # Bounds of the decoder buffer

A buffer of valid settings holds a whole number of bits, and follows the rules for whole bits as long as the
numbers have no more than 53 digits. So it stays within its size if stuffing, which ends at the greatest
signed 32-bit number of bytes, can take what the channel brings for a picture at its least rate. If it
cannot, pictures without bits drive the buffer beyond its size. -/

namespace RateControl.Buffer

open Binary (HasValue hasValue_eight hasValue_int32 hasValue_one hasValue_whole hasValue_zero)
open Unpacked (Representable)

-- ---------------------------------------------------------------------------
-- Steps
-- ---------------------------------------------------------------------------

/-- The rules of the buffer in whole bits. -/
def whole (b : Buffer Float) : WholeBuffer where
  size := b.size.toInt
  least := Scalar.toInt64 b.minRate
  greatest := Scalar.toInt64 b.maxRate
  minStuffing := b.minStuffing.toInt

/-- The stuffing bytes of a picture and the buffer behind it. -/
def next (b : Buffer Float) (bits : Int) : Int × Buffer Float :=
  (b.update bits : Logged (Event Float32 Float) _).value

/-- The buffer behind a picture before stuffing. -/
def filled (b : Buffer Float) (bits : Int) : Buffer Float :=
  let b := (b.drained bits).1
  { b with occupancy := b.occupancy + Scalar.ofInt b.refill }

/-- The buffer behind pictures that are coded one after the other. -/
def after (b : Buffer Float) (sizes : List Int64) : Buffer Float :=
  sizes.foldl (fun b n => (b.next n.toInt).2) b

variable {b : Buffer Float} {level bits : Int}

theorem drained_fixed (b : Buffer Float) (bits : Int) :
    (b.drained bits).1 = { b with occupancy := (b.drained bits).1.occupancy } := by
  unfold drained
  dsimp only
  split <;> rfl

@[simp] theorem whole_drained (b : Buffer Float) (bits : Int) : (b.drained bits).1.whole = b.whole := by
  rw [drained_fixed]
  rfl

@[simp] theorem whole_filled (b : Buffer Float) (bits : Int) : (b.filled bits).whole = b.whole :=
  whole_drained b bits

theorem next_eq (h : b.isEnabled = true) (bits : Int) :
    b.next bits =
      if (b.filled bits).capacity < (b.filled bits).occupancy then
        ((b.filled bits).stuffing,
          { b.filled bits with
            occupancy := Scalar.max
              ((b.filled bits).occupancy - 8.0 * Scalar.ofInt (b.filled bits).stuffing) 0.0 })
      else (0, b.filled bits) := by
  unfold next update
  rw [h]
  simp only [Bool.not_true, Bool.false_eq_true, if_false, Logged.value_bind]
  change Logged.value (if (b.filled bits).capacity < (b.filled bits).occupancy then _ else _) = _
  split <;> rfl

theorem whole_next (b : Buffer Float) (bits : Int) : (b.next bits).2.whole = b.whole := by
  cases h : b.isEnabled with
  | false =>
    unfold next update
    rw [h]
    rfl
  | true =>
    rw [next_eq h]
    split
    · exact whole_filled b bits
    · exact whole_filled b bits

-- ---------------------------------------------------------------------------
-- Values
-- ---------------------------------------------------------------------------

theorem size_lt (b : Buffer Float) : b.whole.size < 2 ^ 31 := b.size.toInt_lt

/-- What stuffing can take has few digits. -/
theorem least_lt (hleast : b.whole.least ≤ 8 * WholeBuffer.maxStuffing) : b.whole.least < 2 ^ 52 := by
  rw [WholeBuffer.maxStuffing] at hleast
  omega

theorem hasValue_capacity (b : Buffer Float) : HasValue b.capacity b.whole.size := hasValue_int32 b.size

/-- The size of a picture, which is rounded only if it has more than 53 digits. -/
theorem hasValue_bits (hbits : 0 ≤ bits) (hlt : bits < 2 ^ 63) :
    ∃ y, HasValue (Scalar.ofInt bits : Float) y ∧ y ≤ 2 ^ (63 : Int) ∧ (y = bits ∨ 2 ^ (53 : Int) ≤ y) := by
  have hle : |(bits : ℚ)| ≤ 2 ^ (63 : Int) := by
    rw [← Int.cast_abs, abs_of_nonneg hbits]
    exact_mod_cast hlt.le
  have hround := @Binary.Lawful.rounded_ofInt Float _ _ _ bits
    (hle.trans (Binary.two_pow_le_bound (by norm_num)))
  refine ⟨_, .of_rounded hround, ?_, ?_⟩
  · exact (le_abs_self _).trans (hround.abs_value_le (Binary.minExponent_le (by norm_num)) hle)
  · by_cases hsmall : bits < 2 ^ 53
    · left
      exact (hasValue_whole (by omega) hsmall).eq
    · right
      exact hround.zpow_le_value (Binary.minExponent_le (by norm_num)) (by exact_mod_cast not_lt.1 hsmall)

/-- A picture that is greater than the level runs the buffer dry. -/
theorem runs_dry (hlevel : HasValue b.occupancy level) (hlow : -2 ^ 31 ≤ level)
    (hhigh : level ≤ b.whole.size) (hdry : level < bits) (hbits : 0 ≤ bits) (hlt : bits < 2 ^ 63) :
    b.occupancy - Scalar.ofInt bits < (0.0 : Float) := by
  have hsize := b.size_lt
  obtain ⟨y, hy, hyle, hyge⟩ := hasValue_bits hbits hlt
  have hroom : 2 ^ (0 : Int) ≤ -(level - y) := by
    have hnext : (level : ℚ) + 1 ≤ bits := by exact_mod_cast hdry
    have hcap : (level : ℚ) + 1 ≤ 2 ^ (53 : Int) := by exact_mod_cast (by omega : level + 1 ≤ 2 ^ 53)
    rw [zpow_zero]
    obtain rfl | hyge := hyge <;> linarith
  have habs : |level - y| ≤ 2 ^ (64 : Int) := by
    have hleast : (-2 ^ 31 : ℚ) ≤ level := by exact_mod_cast hlow
    rw [zpow_zero] at hroom
    rw [abs_le]
    norm_num at hyle hleast ⊢
    constructor <;> linarith
  have hround := hlevel.rounded_sub hy (habs.trans (Binary.two_pow_le_bound (by norm_num)))
  have hneg := hround.neg.zpow_le_value (Binary.minExponent_le (by norm_num)) hroom
  rw [Unpacked.value_neg, zpow_zero] at hneg
  rw [(HasValue.of_rounded hround).lt_iff hasValue_zero]
  linarith

theorem hasValue_drained (hlevel : HasValue b.occupancy level) (hlow : -2 ^ 31 ≤ level)
    (hhigh : level ≤ b.whole.size) (hbits : 0 ≤ bits) (hlt : bits < 2 ^ 63) :
    HasValue (b.drained bits).1.occupancy (WholeBuffer.drained level bits) := by
  have hsize := b.size_lt
  unfold drained WholeBuffer.drained
  dsimp only
  by_cases hdry : level < bits
  · rw [if_pos (runs_dry hlevel hlow hhigh hdry hbits hlt), max_eq_right (by omega), Int.cast_zero]
    exact hasValue_zero
  · have hwhole : HasValue (Scalar.ofInt bits : Float) bits := hasValue_whole (by omega) (by omega)
    have hleft := hlevel.sub_whole hwhole (by omega) (by omega)
    have hnot : ¬ b.occupancy - Scalar.ofInt bits < (0.0 : Float) := by
      rw [hleft.lt_iff hasValue_zero, not_lt]
      exact_mod_cast (by omega : 0 ≤ level - bits)
    rw [if_neg hnot, max_eq_left (by omega)]
    exact hleft

theorem refill_eq (hlevel : HasValue b.occupancy level) (hlow : 0 ≤ level) (hhigh : level ≤ b.whole.size) :
    b.refill = b.whole.refill level := by
  have hsize := b.size_lt
  have hroom := (b.hasValue_capacity.sub_whole hlevel (by omega) (by omega)).sub_whole hasValue_one
    (by omega) (by omega)
  have htrunc : Scalar.toInt64 (b.capacity - b.occupancy - 1.0) = b.whole.size - level - 1 := by
    rw [Scalar.toInt64, hroom.truncate_int, Binary.clamp]
    omega
  unfold refill
  rw [htrunc]
  rfl

/-- What the channel brings behind a picture, in whole bits. -/
theorem refill_drained (hvalid : b.whole.Valid) (hlevel : HasValue b.occupancy level) (hlow : -2 ^ 31 ≤ level)
    (hhigh : level ≤ b.whole.size) (hbits : 0 ≤ bits) (hlt : bits < 2 ^ 63) :
    (b.drained bits).1.refill = b.whole.refill (WholeBuffer.drained level bits) := by
  have hdrained := hasValue_drained hlevel hlow hhigh hbits hlt
  obtain ⟨hlow', hhigh'⟩ := hvalid.drained_bounds hbits hhigh
  have hrefill := refill_eq hdrained hlow' (by rwa [whole_drained])
  rwa [whole_drained] at hrefill

/-- Before stuffing the buffer holds what it should while the channel brings less than 53 digits. -/
theorem hasValue_filled (hvalid : b.whole.Valid) (hleast : b.whole.least < 2 ^ 52)
    (hlevel : HasValue b.occupancy level) (hlow : -2 ^ 31 ≤ level) (hhigh : level ≤ b.whole.size)
    (hbits : 0 ≤ bits) (hlt : bits < 2 ^ 63) :
    HasValue (b.filled bits).occupancy (b.whole.filled level bits) := by
  have hsize := b.size_lt
  have hdrained := hasValue_drained hlevel hlow hhigh hbits hlt
  obtain ⟨hlow', hhigh'⟩ := hvalid.drained_bounds hbits hhigh
  obtain ⟨-, hfilled⟩ := hvalid.filled_bounds hbits hhigh
  have hrefill := refill_drained hvalid hlevel hlow hhigh hbits hlt
  have hnonneg := hvalid.refill_nonneg (WholeBuffer.drained level bits)
  unfold filled
  dsimp only
  rw [WholeBuffer.filled] at hfilled ⊢
  rw [hrefill]
  exact hdrained.add_whole (hasValue_whole (by omega) (by omega)) (by omega) (by omega)

/-- The eighth part of a number of bits, brought up to whole bytes. -/
theorem ceil_eighth (n : Int) : ⌈(n : ℚ) / (8 : Int)⌉ = (n + 7) / 8 := by
  rw [Int.ceil_eq_iff, lt_div_iff₀ (by norm_num), div_le_iff₀ (by norm_num)]
  constructor
  · exact_mod_cast (by omega : ((n + 7) / 8 - 1) * 8 < n)
  · exact_mod_cast (by omega : n ≤ (n + 7) / 8 * 8)

theorem stuffing_eq {o : Int} (ho : HasValue b.occupancy o) (hover : b.whole.size < o) (hlt : o < 2 ^ 53)
    (hpos : 0 < b.whole.size) : b.stuffing = b.whole.stuffing o := by
  have hexcess := ho.sub_whole b.hasValue_capacity (by omega) (by omega)
  have hnonneg : (0 : ℚ) ≤ (o - b.whole.size : Int) := by exact_mod_cast (by omega : 0 ≤ o - b.whole.size)
  have hbound : ((o - b.whole.size : Int) : ℚ) < 2 ^ 53 := by
    exact_mod_cast (by omega : o - b.whole.size < 2 ^ 53)
  have heighth := hexcess.div hasValue_eight (by norm_num) (by
    refine ⟨o - b.whole.size, -3, 50, by norm_num [div_eq_mul_inv], ?_, by decide, by decide⟩
    rw [abs_of_nonneg (by positivity), div_lt_iff₀ (by norm_num)]
    exact hbound.trans_eq (by norm_num))
  have hceil : Scalar.ceiling (-2147483648) 2147483647 ((b.occupancy - b.capacity) / 8.0) =
      min ((o - b.whole.size + 7) / 8) WholeBuffer.maxStuffing := by
    rw [heighth.ceiling (by positivity), ceil_eighth, Binary.clamp, WholeBuffer.maxStuffing]
    omega
  unfold stuffing WholeBuffer.stuffing
  rw [hceil]
  change (if _ < b.whole.minStuffing then b.whole.minStuffing else _) = _
  omega

theorem isEnabled_of_valid (hvalid : b.whole.Valid) : b.isEnabled = true := by
  have hpos : 0 < b.size.toInt := hvalid.size_pos
  rw [isEnabled, decide_eq_true_eq]
  rintro heq
  rw [heq] at hpos
  exact absurd hpos (by decide)

/-- What stuffing leaves of a level beyond the size, which is below 0 where more is stuffed than there is. -/
theorem hasValue_unstuffed (hvalid : b.whole.Valid) {x : Float} {o : Int} (ho : HasValue x o) (hnonneg : 0 ≤ o)
    (hlt : o < 2 ^ 53) (hover : b.whole.size < o) :
    HasValue (x - 8.0 * Scalar.ofInt (b.whole.stuffing o)) (o - 8 * b.whole.stuffing o : Int) := by
  have hmax : b.whole.stuffing o ≤ WholeBuffer.maxStuffing := max_le (min_le_right _ _) hvalid.minStuffing_le
  have hpos : 0 < b.whole.stuffing o := by
    rw [WholeBuffer.stuffing, WholeBuffer.maxStuffing]
    omega
  rw [WholeBuffer.maxStuffing] at hmax
  have htaken := hasValue_eight.mul_whole (hasValue_whole (n := b.whole.stuffing o) (by omega) (by omega))
    (by omega) (by omega)
  exact ho.sub_whole htaken (by omega) (by omega)

/-- One picture: the buffer follows the rules for whole bits. -/
theorem next_at (hvalid : b.whole.Valid) (hleast : b.whole.least < 2 ^ 52)
    (hlevel : HasValue b.occupancy level) (hlow : -2 ^ 31 ≤ level) (hhigh : level ≤ b.whole.size)
    (hbits : 0 ≤ bits) (hlt : bits < 2 ^ 63) :
    (b.next bits).1 = (b.whole.update level bits).1 ∧
      HasValue (b.next bits).2.occupancy (b.whole.update level bits).2 := by
  have hsize := b.size_lt
  have hfilled := hasValue_filled hvalid hleast hlevel hlow hhigh hbits hlt
  have hcapacity := (b.filled bits).hasValue_capacity
  obtain ⟨hnonneg, hle⟩ := hvalid.filled_bounds hbits hhigh
  rw [whole_filled] at hcapacity
  have hoverflow : (b.filled bits).capacity < (b.filled bits).occupancy ↔
      b.whole.size < b.whole.filled level bits := by
    rw [hcapacity.lt_iff hfilled]
    exact Int.cast_lt
  rw [next_eq (isEnabled_of_valid hvalid), WholeBuffer.update]
  dsimp only
  generalize b.whole.filled level bits = o at *
  by_cases hover : b.whole.size < o
  · rw [if_pos (hoverflow.2 hover), if_pos hover]
    have hstuffing := stuffing_eq hfilled (by rwa [whole_filled]) (by omega) (by simpa using hvalid.size_pos)
    rw [whole_filled] at hstuffing
    rw [hstuffing]
    refine ⟨rfl, ?_⟩
    rw [Int.cast_max, Int.cast_zero]
    exact (hasValue_unstuffed hvalid hfilled (by omega) (by omega) hover).max hasValue_zero
  · rw [if_neg (mt hoverflow.1 hover), if_neg hover]
    exact ⟨rfl, hfilled⟩

theorem next_fst_le (b : Buffer Float) (bits : Int) : (b.next bits).1 ≤ WholeBuffer.maxStuffing := by
  cases h : b.isEnabled with
  | false =>
    unfold next update
    rw [h]
    change (0 : Int) ≤ _
    decide
  | true =>
    rw [next_eq h]
    split
    · have hmin := (b.filled bits).minStuffing.toInt_lt
      have hcap (x : Float) : Scalar.ceiling (-2147483648) 2147483647 x ≤ 2147483647 := by
        rw [Binary.Lawful.ceiling_eq, Binary.ceiling, Binary.clamp]
        omega
      have hceil := hcap (((b.filled bits).occupancy - (b.filled bits).capacity) / 8.0)
      rw [WholeBuffer.maxStuffing]
      dsimp only [stuffing]
      split <;> omega
    · change (0 : Int) ≤ _
      decide

/-- What the channel brings at its least rate is not lost by rounding. -/
theorem two_pow_le_filled (hsize : 0 < b.whole.size) (hleast : 2 ^ 52 ≤ b.whole.least)
    (hlevel : HasValue b.occupancy level) (hlow : -2 ^ 31 ≤ level) (hhigh : level ≤ b.whole.size)
    {o : ℚ} (ho : HasValue (b.filled 0).occupancy o) : 2 ^ (52 : Int) ≤ o := by
  have hsize' := b.size_lt
  have hcap : b.whole.least < 2 ^ 63 := by
    change Scalar.toInt64 b.minRate < 2 ^ 63
    rw [Scalar.toInt64, Binary.Lawful.truncate_eq, Binary.truncate, Binary.clamp]
    omega
  have hdrained := hasValue_drained hlevel hlow hhigh le_rfl (by norm_num)
  obtain ⟨hleft, hleftle⟩ : 0 ≤ WholeBuffer.drained level 0 ∧ WholeBuffer.drained level 0 ≤ b.whole.size := by
    rw [WholeBuffer.drained]
    omega
  have hrefill := refill_eq hdrained hleft (by rwa [whole_drained])
  rw [whole_drained, WholeBuffer.refill, if_pos (by omega)] at hrefill
  obtain ⟨y, hy, hyle, hyge⟩ := hasValue_bits (show 0 ≤ b.whole.least by omega) hcap
  have hleastQ : (2 : ℚ) ^ (52 : Int) ≤ y := by
    obtain rfl | hyge := hyge
    · exact_mod_cast hleast
    · exact le_trans (by norm_num) hyge
  have hleftQ : (0 : ℚ) ≤ WholeBuffer.drained level 0 := by exact_mod_cast hleft
  have hleftleQ : (WholeBuffer.drained level 0 : ℚ) ≤ 2 ^ (63 : Int) := by
    exact_mod_cast (by omega : WholeBuffer.drained level 0 ≤ 2 ^ 63)
  have habs : |WholeBuffer.drained level 0 + y| ≤ 2 ^ (64 : Int) := by
    rw [abs_of_nonneg (by linarith [show (0 : ℚ) < 2 ^ (52 : Int) by positivity])]
    norm_num at hleftleQ hyle ⊢
    linarith
  have hround := hdrained.rounded_add hy (habs.trans (Binary.two_pow_le_bound (by norm_num)))
  have hsum := hround.zpow_le_value (Binary.minExponent_le (by norm_num)) (hleastQ.trans (by linarith))
  have hoccupancy : (b.filled 0).occupancy = (b.drained 0).1.occupancy + Scalar.ofInt b.whole.least := by
    rw [← hrefill]
    rfl
  rwa [← hoccupancy, ho.eq] at hsum

-- ---------------------------------------------------------------------------
-- Buffers of valid settings
-- ---------------------------------------------------------------------------

variable {s : Settings Float32} {secondPass : Bool}

/-- Pictures per second of a valid time base. -/
theorem hasValue_frameRate (hvalid : s.violation? secondPass = none) :
    ∃ y, HasValue (s.frameRate : Float) y ∧ 2 ^ (-32 : Int) ≤ y := by
  obtain ⟨⟨hnum, hnumle⟩, ⟨hden, hdenle⟩⟩ := s.timeBase_bounds hvalid
  rw [timeBaseMax] at hnumle hdenle
  have hnumQ : (1 : ℚ) ≤ (s.timeBase.num : Int) := by exact_mod_cast hnum
  have hdenQ : (1 : ℚ) ≤ (s.timeBase.den : Int) := by exact_mod_cast hden
  have hnumleQ : ((s.timeBase.num : Int) : ℚ) ≤ 2 ^ 32 := by exact_mod_cast (by omega : s.timeBase.num ≤ 2 ^ 32)
  have hdenleQ : ((s.timeBase.den : Int) : ℚ) ≤ 2 ^ 32 := by exact_mod_cast (by omega : s.timeBase.den ≤ 2 ^ 32)
  have hlow : (2 : ℚ) ^ (-32 : Int) ≤ (s.timeBase.den : Int) / (s.timeBase.num : Int) := by
    rw [le_div_iff₀ (by linarith), show (2 : ℚ) ^ (-32 : Int) = 1 / 2 ^ 32 by norm_num]
    linarith
  have hhigh : |((s.timeBase.den : Int) : ℚ) / (s.timeBase.num : Int)| ≤ 2 ^ (32 : Int) := by
    rw [abs_of_nonneg (by positivity), div_le_iff₀ (by linarith),
      show (2 : ℚ) ^ (32 : Int) = 2 ^ 32 by norm_num]
    linarith
  have hround := (hasValue_whole (n := s.timeBase.den) (by omega) (by omega)).rounded_div
    (hasValue_whole (n := s.timeBase.num) (by omega) (by omega)) (by linarith)
    (hhigh.trans (Binary.two_pow_le_bound (by norm_num)))
  exact ⟨_, .of_rounded hround, hround.zpow_le_value (Binary.minExponent_le (by norm_num)) hlow⟩

/-- A channel takes nothing away. -/
theorem rate_nonneg (hvalid : s.violation? secondPass = none) {n : Int} (hn : 0 ≤ n) (hlt : n < 2 ^ 63) :
    0 ≤ Scalar.toInt64 (Scalar.ofInt n / s.frameRate : Float) := by
  obtain ⟨y, hy, hyle⟩ := hasValue_frameRate hvalid
  obtain ⟨x, hx, hxle, hxge⟩ := hasValue_bits hn hlt
  have hxpos : 0 ≤ x := by
    obtain rfl | hxge := hxge
    · exact_mod_cast hn
    · exact le_trans (by positivity) hxge
  have hypos : 0 < y := lt_of_lt_of_le (by positivity) hyle
  have hquot : |x / y| ≤ 2 ^ (95 : Int) := by
    rw [abs_of_nonneg (by positivity), div_le_iff₀ hypos]
    norm_num at hxle hyle ⊢
    linarith
  have hround := hx.rounded_div hy hypos.ne' (hquot.trans (Binary.two_pow_le_bound (by norm_num)))
  have hnonneg := hround.value_nonneg (by positivity)
  rw [Scalar.toInt64, (HasValue.of_rounded hround).truncate hnonneg, Binary.clamp]
  have := Int.floor_nonneg.2 hnonneg
  omega

theorem valid_ofSettings (hvalid : s.violation? secondPass = none) (hsize : 0 < s.bufferSize.toInt) :
    (ofSettings s : Buffer Float).whole.Valid where
  size_pos := hsize
  least_nonneg := rate_nonneg hvalid (s.rates_nonneg hvalid).1 s.minRate.toInt_lt
  greatest_nonneg := rate_nonneg hvalid (s.rates_nonneg hvalid).2 s.maxRate.toInt_lt
  minStuffing_le := Int.lt_add_one_iff.1 s.minStuffing.toInt_lt

/-- At the start the buffer holds what the settings say, or three quarters of its size. -/
theorem hasValue_initial (hsize : 0 < s.bufferSize.toInt) :
    HasValue (ofSettings s : Buffer Float).occupancy
      (if s.initialOccupancy ≠ 0 then s.initialOccupancy.toInt else s.bufferSize.toInt * 3 / 4 : Int) := by
  have hlt := s.bufferSize.toInt_lt
  have hthree : (Int32.ofInt ((s.bufferSize.toInt * 3).tdiv 4)).toInt = s.bufferSize.toInt * 3 / 4 := by
    rw [Int.tdiv_eq_ediv_of_nonneg (by omega), Int32.toInt_ofInt_of_le (by omega) (by omega)]
  rw [← hthree]
  dsimp only [ofSettings]
  split <;> exact hasValue_int32 _

/-- At the start the buffer is not beyond its size. It is below 0 if the settings say so. -/
theorem hasValue_ofSettings (hvalid : s.violation? secondPass = none) (hsize : 0 < s.bufferSize.toInt) :
    ∃ level : Int, HasValue (ofSettings s : Buffer Float).occupancy level ∧ -2 ^ 31 ≤ level ∧
      level ≤ (ofSettings s : Buffer Float).whole.size := by
  have hle := s.initialOccupancy_le hvalid
  have hlow := s.initialOccupancy.le_toInt
  refine ⟨_, hasValue_initial hsize, ?_⟩
  change _ ∧ _ ≤ s.bufferSize.toInt
  split <;> omega

-- ---------------------------------------------------------------------------
-- Runs
-- ---------------------------------------------------------------------------

/-- What a picture should find: it leaves the buffer between empty and full, and stuffing has taken all that
    was beyond the size. -/
structure Keeps (b : Buffer Float) (bits : Int) : Prop where
  level : ∃ x : ℚ, HasValue (b.next bits).2.occupancy x ∧ 0 ≤ x ∧ x ≤ b.size.toInt
  covered : ∃ o : ℚ, HasValue (b.filled bits).occupancy o ∧ o - b.size.toInt ≤ 8 * (b.next bits).1

/-- The buffer counts whole bits, and no more than its size. -/
def Counts (b : Buffer Float) : Prop :=
  ∃ level : Int, HasValue b.occupancy level ∧ -2 ^ 31 ≤ level ∧ level ≤ b.whole.size

/-- One picture, while stuffing can take what the least rate brings. -/
theorem Counts.next (hcounts : b.Counts) (hvalid : b.whole.Valid)
    (hleast : b.whole.least ≤ 8 * WholeBuffer.maxStuffing) (hbits : 0 ≤ bits) (hlt : bits < 2 ^ 63) :
    b.Keeps bits ∧ (b.next bits).2.Counts := by
  obtain ⟨level, hlevel, hlow, hhigh⟩ := hcounts
  have hfew := least_lt hleast
  obtain ⟨hstuffing, hnext⟩ := next_at hvalid hfew hlevel hlow hhigh hbits hlt
  have hfilled := hasValue_filled hvalid hfew hlevel hlow hhigh hbits hlt
  obtain ⟨hnonneg, hle, hcovered⟩ := hvalid.update_bounds hleast hbits hhigh
  rw [← hstuffing] at hcovered
  refine ⟨⟨⟨_, hnext, ?_, ?_⟩, ⟨_, hfilled, ?_⟩⟩, _, hnext, by omega, by rwa [whole_next]⟩
  · exact_mod_cast hnonneg
  · exact_mod_cast hle
  · exact_mod_cast hcovered

theorem whole_after (b : Buffer Float) (sizes : List Int64) : (b.after sizes).whole = b.whole := by
  induction sizes generalizing b with
  | nil => rfl
  | cons n sizes ih => exact (ih _).trans (whole_next b _)

theorem Counts.after (hcounts : b.Counts) (hvalid : b.whole.Valid)
    (hleast : b.whole.least ≤ 8 * WholeBuffer.maxStuffing) {sizes : List Int64}
    (hsizes : ∀ n ∈ sizes, 0 ≤ n.toInt) : (b.after sizes).Counts := by
  induction sizes generalizing b with
  | nil => exact hcounts
  | cons n sizes ih =>
    obtain ⟨hn, hsizes⟩ := List.forall_mem_cons.1 hsizes
    obtain ⟨-, hnext⟩ := hcounts.next hvalid hleast hn n.toInt_lt
    exact ih hnext (by rwa [whole_next]) (by rwa [whole_next]) hsizes

/-- Empty pictures one after the other. -/
def emptied (b : Buffer Float) (n : Nat) : Buffer Float := b.after (List.replicate n 0)

theorem emptied_succ (b : Buffer Float) (n : Nat) : b.emptied (n + 1) = ((b.emptied n).next 0).2 := by
  rw [emptied, List.replicate_succ', after, List.foldl_append]
  rfl

/-- A buffer that gets more than stuffing can take rises with every empty picture, while it counts. -/
theorem le_emptied (hvalid : b.whole.Valid) (hleast : 8 * WholeBuffer.maxStuffing < b.whole.least)
    (hfew : b.whole.least < 2 ^ 52) (hcounts : b.Counts) (hkeeps : ∀ n, (b.emptied n).Keeps 0) (n : Nat) :
    ∃ level : Int, HasValue (b.emptied n).occupancy level ∧ -2 ^ 31 + n ≤ level ∧ level ≤ b.whole.size := by
  have hsize := b.size_lt
  induction n with
  | zero =>
    obtain ⟨level, hlevel, hlow, hhigh⟩ := hcounts
    exact ⟨level, hlevel, by omega, hhigh⟩
  | succ n ih =>
    obtain ⟨level, hlevel, hlow, hhigh⟩ := ih
    have hwhole : (b.emptied n).whole = b.whole := whole_after b _
    have hrise : level < (b.whole.update level 0).2 :=
      hvalid.lt_update hleast (by rw [WholeBuffer.maxStuffing]; omega)
    obtain ⟨-, hnext⟩ := next_at (b := b.emptied n) (by rwa [hwhole]) (by rwa [hwhole]) hlevel (by omega)
      (by rwa [hwhole]) le_rfl (by norm_num)
    obtain ⟨x, hx, -, hle⟩ := (hkeeps n).level
    rw [hwhole] at hnext
    rw [emptied_succ]
    refine ⟨_, hnext, by omega, ?_⟩
    have hcap : (b.emptied n).size.toInt = b.whole.size := congrArg WholeBuffer.size hwhole
    rw [← hx.eq, hnext.eq, hcap] at hle
    exact_mod_cast hle

/-- A buffer of valid settings stays in bounds in every run, just if the whole bits that the channel brings for
    a picture at its least rate are no more than the greatest number of stuffing bytes. -/
theorem keeps_iff (hvalid : s.violation? secondPass = none) (hsize : 0 < s.bufferSize.toInt) :
    (∀ sizes : List Int64, (∀ n ∈ sizes, 0 ≤ n.toInt) → ∀ n : Int64, 0 ≤ n.toInt →
      ((ofSettings s : Buffer Float).after sizes).Keeps n.toInt) ↔
        Scalar.toInt64 (ofSettings s : Buffer Float).minRate ≤ 8 * 2147483647 := by
  have hwhole := valid_ofSettings hvalid hsize
  have hcounts : (ofSettings s : Buffer Float).Counts := hasValue_ofSettings hvalid hsize
  generalize (ofSettings s : Buffer Float) = b at *
  change _ ↔ b.whole.least ≤ 8 * WholeBuffer.maxStuffing
  constructor
  · intro hkeeps
    by_contra! hgt
    have hempty (n : Nat) : (b.emptied n).Keeps 0 :=
      hkeeps _ (fun m hm => by rw [List.eq_of_mem_replicate hm]; decide) 0 (by decide)
    by_cases hfew : b.whole.least < 2 ^ 52
    · obtain ⟨level, -, hlow, hhigh⟩ := le_emptied hwhole hgt hfew hcounts hempty (2 ^ 32)
      have := b.size_lt
      omega
    · obtain ⟨level, hlevel, hlow, hhigh⟩ := hcounts
      obtain ⟨o, ho, hle⟩ := (hempty 0).covered
      have hmuch := two_pow_le_filled hwhole.size_pos (not_lt.1 hfew) hlevel hlow hhigh ho
      have hstuffing : ((b.next 0).1 : ℚ) ≤ 2147483647 := by exact_mod_cast b.next_fst_le 0
      have hcapacity : (b.size.toInt : ℚ) < 2 ^ 31 := by exact_mod_cast b.size_lt
      change o - b.size.toInt ≤ 8 * (b.next 0).1 at hle
      norm_num at hmuch hcapacity
      linarith
  · intro hleast sizes hsizes n hn
    have hafter := hcounts.after hwhole hleast hsizes
    exact (hafter.next (by rwa [whole_after]) (by rwa [whole_after]) hn n.toInt_lt).1

theorem keeps_of_moderate_rate :
    let settings : Settings Float32 :=
      { Settings.standard with bufferSize := 1000, minRate := 50000, maxRate := 400000 }
    settings.violation? false = none ∧ 0 < settings.bufferSize.toInt ∧
      ∀ sizes : List Int64, (∀ n ∈ sizes, 0 ≤ n.toInt) → ∀ n : Int64, 0 ≤ n.toInt →
        ((ofSettings settings : Buffer Float).after sizes).Keeps n.toInt := by
  intro settings
  have hvalid : settings.violation? false = none := by
    rw [← Option.isNone_iff_eq_none]
    decide +kernel
  have hsize : 0 < settings.bufferSize.toInt := by decide
  have hleast : Scalar.toInt64 (ofSettings settings : Buffer Float).minRate ≤ 8 * 2147483647 := by
    decide +kernel
  exact ⟨hvalid, hsize, (keeps_iff hvalid hsize).2 hleast⟩

/-- At a rate of `10 ^ 12` bits per second, the greatest number of stuffing bytes is not half of what a picture
    would need. -/
theorem overflows_at_extreme_rate :
    let settings : Settings Float32 :=
      { Settings.standard with bufferSize := 1000, minRate := 1000000000000, maxRate := 1000000000000 }
    let buffer : Buffer Float := ofSettings settings
    (settings.violation? false).isNone = true ∧ (buffer.next 0).1 = 2147483647 ∧
      buffer.capacity + 8.0 * Scalar.ofInt (buffer.next 0).1 < (buffer.filled 0).occupancy ∧
      buffer.capacity < (buffer.next 0).2.occupancy := by
  decide +kernel

end RateControl.Buffer
