-- SUMMARY: The quantizer of a second pass rises with the bits written so far, but where the drift reaches the tolerance or wraps around.
import RateControl.Proofs.Plan.Affordable
import RateControl.Proofs.Session.Decision
import RateControl.Proofs.Session.Independence

/-! # Compensation

A second pass divides the planned quantizer by the share of the tolerance that the drift has left, so more bits
lead to a greater quantizer. When nothing is left, the share is taken to be a thousandth. Just before, it is less
than that if the tolerance is more than 1000 bits, and there more bits can lead to a lower quantizer. The only
other place for that is where the drift leaves the 64 bits that it is counted in. -/

namespace RateControl

open scoped Exact

namespace Session

/-! ## Drifts -/

/-- How far a total is ahead of the bits that were wanted, in 64 bits. -/
def drift (total wanted : Int64) : Int := (total - wanted).toInt

/-- The drift is no number of 64 bits. -/
def Wraps (total wanted : Int64) : Prop :=
  total.toInt - wanted.toInt < -2 ^ 63 ∨ 2 ^ 63 ≤ total.toInt - wanted.toInt

section Drifts

variable {a b total wanted : Int64}

theorem drift_of_not_wraps (h : ¬ Wraps total wanted) : drift total wanted = total.toInt - wanted.toInt := by
  rw [Wraps, not_or] at h
  rw [drift, Int64.toInt_sub]
  exact Int.bmod_eq_of_le (by omega) (by omega)

/-- Where the bits that were wanted are a positive number, only drifts below the range wrap around, and all to
    drifts above the others; otherwise only drifts above the range do. -/
theorem drift_le_iff (hab : a ≤ b) : drift a wanted ≤ drift b wanted ↔ (Wraps a wanted ↔ Wraps b wanted) := by
  have hab := Int64.le_iff_toInt_le.1 hab
  have hlow := a.le_toInt
  have hhigh := b.toInt_lt
  have hlow' := wanted.le_toInt
  have hhigh' := wanted.toInt_lt
  simp only [drift, Wraps, Int64.toInt_sub, Int.bmod_eq_emod]
  split <;> split <;> omega

end Drifts

/-! ## Shares -/

/-- What the drift has left of the tolerance, as a share of it. -/
noncomputable def shareLeft (tolerance drift : Int) : ℝ :=
  if tolerance ≤ drift then 1 / 1000 else (tolerance - drift : Int) / tolerance

/-- The estimate reacts more strongly to the drift `before` than to `after`: less than a thousandth of the
    tolerance is left at the one, and nothing at the other. -/
def Overreacts (tolerance before after : Int) : Prop :=
  before < tolerance ∧ 1000 * (tolerance - before) < tolerance ∧ tolerance ≤ after

variable {tolerance x y : Int}

theorem shareLeft_pos (h : 0 < tolerance) (x : Int) : 0 < shareLeft tolerance x := by
  unfold shareLeft
  split
  · norm_num
  · have hleft : (0 : ℝ) < (tolerance - x : Int) := by exact_mod_cast (by omega : 0 < tolerance - x)
    have htolerance : (0 : ℝ) < tolerance := by exact_mod_cast h
    exact div_pos hleft htolerance

/-- Whether less than a thousandth is left, in whole bits. -/
theorem shareLeft_lt_iff (h : 0 < tolerance) (hleft : x < tolerance) :
    shareLeft tolerance x < 1 / 1000 ↔ 1000 * (tolerance - x) < tolerance := by
  have htolerance : (0 : ℝ) < tolerance := by exact_mod_cast h
  have hcast : ((tolerance - x : Int) : ℝ) * 1000 < 1 * tolerance ↔ 1000 * (tolerance - x) < tolerance := by
    rw [one_mul, mul_comm]
    exact_mod_cast Iff.rfl
  rw [shareLeft, if_neg (not_le.2 hleft), div_lt_div_iff₀ htolerance (by norm_num)]
  exact hcast

/-- A greater drift leaves no more, unless the estimate overreacts to the lesser one. -/
theorem shareLeft_antitone (h : 0 < tolerance) (hxy : x ≤ y) (hover : ¬ Overreacts tolerance x y) :
    shareLeft tolerance y ≤ shareLeft tolerance x := by
  have htolerance : (0 : ℝ) < tolerance := by exact_mod_cast h
  by_cases hx : tolerance ≤ x
  · rw [shareLeft, shareLeft, if_pos hx, if_pos (hx.trans hxy)]
  · by_cases hy : tolerance ≤ y
    · have hlow : ¬ shareLeft tolerance x < 1 / 1000 := by
        rw [shareLeft_lt_iff h (not_le.1 hx)]
        exact fun hlt => hover ⟨not_le.1 hx, hlt, hy⟩
      rw [shareLeft, if_pos hy]
      exact not_lt.1 hlow
    · rw [shareLeft, shareLeft, if_neg hx, if_neg hy]
      have hleft : ((tolerance - y : Int) : ℝ) ≤ (tolerance - x : Int) := by
        exact_mod_cast (by omega : tolerance - y ≤ tolerance - x)
      exact div_le_div_of_nonneg_right hleft htolerance.le

theorem shareLeft_le_of_overreacts (h : 0 < tolerance) (hover : Overreacts tolerance x y) :
    shareLeft tolerance x ≤ shareLeft tolerance y := by
  obtain ⟨hx, hlow, hy⟩ := hover
  have hlt := (shareLeft_lt_iff h hx).2 hlow
  have hnone : shareLeft tolerance y = 1 / 1000 := if_pos hy
  exact hlt.le.trans_eq hnone.symm

/-- A tolerance of up to 1000 bits never has less than a thousandth left. -/
theorem not_overreacts (h : tolerance ≤ 1000) : ¬ Overreacts tolerance x y := by
  rintro ⟨hx, hlow, -⟩
  omega

/-- What the estimate makes of a drift and of a greater one: the second quantizer `v` is no lower than the first
    one `u`, unless the estimate overreacts, and then it is no greater. -/
structure Follows (tolerance before after : Int) (u v : ℝ) : Prop where
  rises : ¬ Overreacts tolerance before after → u ≤ v
  falls : Overreacts tolerance before after → v ≤ u
  rises_of_few : tolerance ≤ 1000 → u ≤ v

/-- A quantizer that rises where less is left follows the drift. -/
theorem Follows.of_shares (h : 0 < tolerance) (hxy : x ≤ y) {u : Int → ℝ}
    (hu : ∀ x y, shareLeft tolerance y ≤ shareLeft tolerance x → u x ≤ u y) :
    Follows tolerance x y (u x) (u y) where
  rises hover := hu x y (shareLeft_antitone h hxy hover)
  falls hover := hu y x (shareLeft_le_of_overreacts h hover)
  rises_of_few hfew := hu x y (shareLeft_antitone h hxy (not_overreacts hfew))

/-! ## Decisions -/

section Decisions

theorem compensation_eq (settings : Settings ℝ) (f : Frame) (wanted : Int64)
    (h : 0 < settings.tolerance.toInt) :
    (compensation settings f wanted : ℝ) = shareLeft settings.tolerance.toInt (drift f.totalBits wanted) := by
  have htolerance : (0 : ℝ) < settings.tolerance.toInt := by exact_mod_cast h
  have hsub (n : Int) : ((settings.tolerance.toInt : ℝ) - n) = (settings.tolerance.toInt - n : Int) := by
    push_cast
    rfl
  have hleft (n : Int) : (settings.tolerance.toInt - n : Int) / (settings.tolerance.toInt : ℝ) ≤ 0.0 ↔
      settings.tolerance.toInt ≤ n := by
    norm_num
    rw [div_le_iff₀ htolerance, zero_mul, sub_nonpos]
    exact_mod_cast Iff.rfl
  simp only [compensation, Exact.ofInt_eq, shareLeft, drift, hsub, hleft]
  norm_num

/-- Without lambdas for macroblocks the decision is a rounded quantizer. -/
theorem decide_plain {masking : Option (MaskingSettings ℝ)} {f : Frame}
    (hplain : masking = none ∨ f.macroblocks = none) (q : ℝ) :
    (decide masking f q : Logged (Event ℝ ℝ) _).value = ⟨Scalar.floor (q + 0.5), none⟩ := by
  obtain rfl | h := hplain
  · rfl
  · unfold decide
    rw [h]
    cases masking <;> rfl

variable [Precision ℝ ℝ] [Precision.IsRounding]

/-- A greater candidate leads to a greater quantizer. -/
theorem rounded_mono {range : LambdaRange} (hrange : range.least ≤ range.greatest) {c d : ℝ} (hle : c ≤ d) :
    (Scalar.floor (clippedTo range c + 0.5 : ℝ) : ℝ) ≤ Scalar.floor (clippedTo range d + 0.5) := by
  have hrange : ((range.least : Int) : ℝ) ≤ range.greatest := by exact_mod_cast hrange
  have hclipped : (clippedTo range c : ℝ) ≤ clippedTo range d := by
    simp only [clippedTo, Exact.ofInt_eq]
    rw [Settings.clipped_eq hrange, Settings.clipped_eq hrange]
    exact max_le_max_left _ (min_le_min_right _ (Precision.IsRounding.narrow_mono hle))
  exact Int.cast_le.2 (Int.floor_mono (add_le_add_left hclipped 0.5))

/-- More bits lead to no lower quantizer, unless the estimate overreacts to the lesser number of them, or just one
    of the two drifts wraps around. For every second pass, every picture of its plan and all numbers of bits that
    have been written there is a quantizer, which is the answer whatever steps came before. It rises with the drift
    but for one fall: from a drift that leaves less than a thousandth of the tolerance to one that leaves nothing. -/
theorem estimate_mono {settings : Settings ℝ} {log : Log ℝ} {s : Session ℝ ℝ}
    (hcreate : (create settings (some log) : Attempt (Event ℝ ℝ) (Fault ℝ ℝ) _).outcome = .ok s)
    {f : Frame} {r : Record ℝ} (hr : s.record? f.picture = some r)
    (hplain : settings.masking = none ∨ f.macroblocks = none) :
    let tolerance := settings.tolerance.toInt
    let wanted := Int64.ofNat r.plannedBits
    ∃ q : Int64 → ℝ,
      (∀ before dryRun total,
        ((s.run before).2.estimate { f with totalBits := total } dryRun).value.1 = .ok ⟨q total, none⟩) ∧
      (∀ total, ¬ Wraps total wanted → drift total wanted = total.toInt - wanted.toInt) ∧
      ∀ a b, a ≤ b →
        ((Wraps a wanted ↔ Wraps b wanted) → Follows tolerance (drift a wanted) (drift b wanted) (q a) (q b)) ∧
        (¬ (Wraps a wanted ↔ Wraps b wanted) →
          Follows tolerance (drift b wanted) (drift a wanted) (q b) (q a)) := by
  intro tolerance wanted
  obtain ⟨hvalid, hsettings⟩ := create_ok hcreate
  obtain ⟨-, t, -, hplan⟩ := create_log_ok hcreate
  have htolerance : 0 < tolerance := Settings.tolerance_pos hvalid
  have hplanned : 0 ≤ r.plannedQuantizer :=
    zero_le_one.trans (Policy.one_le_plan hplan r (List.mem_of_getElem? hr))
  have hpass : s.isSecondPass = true := (create_buffer hcreate).2
  obtain ⟨-, hrange, -⟩ := settings.quantizer.lambdaRange_bounds ℝ f.pictureType
  let range := settings.quantizer.lambdaRange ℝ f.pictureType
  let q (n : Int) : ℝ := Scalar.floor (clippedTo range (r.plannedQuantizer / shareLeft tolerance n) + 0.5)
  have hq (x y : Int) (h : shareLeft tolerance y ≤ shareLeft tolerance x) : q x ≤ q y :=
    rounded_mono hrange (div_le_div_of_nonneg_left hplanned (shareLeft_pos htolerance y) h)
  refine ⟨fun total => q (drift total wanted), fun before dryRun total => ?_, fun total => drift_of_not_wraps,
    fun a b hab => ⟨fun hboth => ?_, fun hone => ?_⟩⟩
  · obtain ⟨hpolicy, htable⟩ := s.run_fixed before
    have hpass' : (s.run before).2.isSecondPass = true := by rwa [isSecondPass, htable]
    have hr' : (s.run before).2.record? ({ f with totalBits := total } : Frame).picture = some r := by
      rwa [record?, htable]
    rw [estimate_value, assess_planned hpass' hr', hpolicy, hsettings, compensation_eq settings _ _ htolerance,
      Precision.IsRounding.widen_eq]
    exact congrArg Except.ok (decide_plain hplain _)
  · exact .of_shares htolerance ((drift_le_iff hab).2 hboth) hq
  · exact .of_shares htolerance (not_le.1 fun hle => hone ((drift_le_iff hab).1 hle)).le hq

end Decisions

/-! ## Two pictures -/

/-- Two pictures that the bitrate carries at any quantizer. The first one takes 1000 to 4000 bits. -/
theorem plan_two_pictures :
    let settings : Settings ℝ := { Settings.standard with equation := some "1" }
    let picture : Record ℝ := { quantizer := 236, plannedQuantizer := 236, predictedBits := 9, miscBits := 1000 }
    ∃ (first second : Record ℝ) (st : State ℝ),
      ((Policy.constant settings).plan (.initial settings) [picture, picture] :
        Attempt (Event ℝ ℝ) (Fault ℝ ℝ) _).outcome = .ok ([first, second], st) ∧
      1000 ≤ second.plannedBits ∧ second.plannedBits < 4000 := by
  intro settings picture
  have hcoded : picture.IsCoded := ⟨by norm_num [picture], by decide⟩
  have hbudget : Policy.budget ℝ settings 2 = 16000 := by
    have hvalid : settings.violation? true = none := Settings.violation?_standard 0.0 0
    have h := Policy.budget_eq (K := ℝ) hvalid 2
    have hrate : (settings.frameRate : ℝ) = 25 := by
      simp [settings, Settings.standard, Settings.frameRate, TimeBase.picturesPerSecond]
    have hbitrate : settings.bitrate.toInt = 200000 := by decide
    rw [hrate, hbitrate] at h
    norm_num at h
    exact_mod_cast h
  have hone : picture.sizeAtOne = 3360 := by
    simp [picture, Record.sizeAtOne, Record.size, Record.textureScale]
    norm_num
  obtain ⟨⟨table, st⟩, hplan⟩ : ∃ result, ((Policy.constant settings).plan (.initial settings) [picture, picture] :
      Attempt (Event ℝ ℝ) (Fault ℝ ℝ) _).outcome = .ok result := by
    refine Policy.plan_of_affordable rfl (by simp [hcoded]) ?_ ?_
    · exact (by decide : 2000 ≤ 16000).trans_eq hbudget.symm
    · exact (by norm_num [hone] : _ ≤ (16000 : ℝ)).trans_eq (by exact_mod_cast hbudget.symm)
  have hreplans := (Policy.plan_replans hplan).1
  obtain ⟨first, second, rfl⟩ := List.length_eq_two.1 hreplans.length_eq.symm
  have hfirst : picture.Replans first := (List.forall₂_cons.1 hreplans).1
  have hquantizer : 1 ≤ first.plannedQuantizer := Policy.one_le_plan hplan first (by simp)
  have hleast : (1000 : ℝ) ≤ first.size := by
    have hsize : first.size = 2360 / first.plannedQuantizer + 1000 := by
      rw [hfirst]
      simp [picture, Record.size, Record.textureScale]
      norm_num
    have htexture := div_nonneg (by norm_num : (0 : ℝ) ≤ 2360) (zero_le_one.trans hquantizer)
    linarith
  have hgreatest : (first.size : ℝ) ≤ 3360 := (Record.size_le_sizeAtOne hcoded hfirst hquantizer).trans_eq hone
  have hbits : second.plannedBits = Scalar.toNat64 (first.size : ℝ) := by
    rw [Policy.plannedBits_of_plan hplan (k := 1) rfl, Buffer.codedSizes_disabled rfl]
    norm_num
  have hlow : 1000 ≤ ⌊(first.size : ℝ)⌋ := Int.le_floor.2 (by exact_mod_cast hleast)
  have hhigh : ⌊(first.size : ℝ)⌋ < 4000 := Int.floor_lt.2 (by push_cast; linarith)
  have hfloor := Exact.toNat64_eq (first.size : ℝ)
  rw [← hbits] at hfloor
  exact ⟨first, second, st, hplan, by omega, by omega⟩

/-- The second of the two pictures. Its quantizer rises with the first quarter of the tolerance. Ahead of the plan
    by the tolerance, it is no greater than one bit before. The least total is so far behind the plan that its drift
    wraps around, to a quantizer no lower than that of nothing written. -/
theorem estimate_mono_two_pictures :
    let settings : Settings ℝ := { Settings.standard with equation := some "1" }
    let picture : Record ℝ := { quantizer := 236, plannedQuantizer := 236, predictedBits := 9, miscBits := 1000 }
    ∃ (s : Session ℝ ℝ) (r : Record ℝ) (q : Int64 → ℝ),
      (create settings (some ⟨[(0, picture), (1, picture)]⟩) : Attempt (Event ℝ ℝ) (Fault ℝ ℝ) _).outcome = .ok s ∧
      s.record? 1 = some r ∧ 1000 ≤ r.plannedBits ∧ r.plannedBits < 4000 ∧
      (∀ total, (s.estimate { picture := 1, totalBits := total } false).value.1 = .ok ⟨q total, none⟩) ∧
      q 0 ≤ q 1000000 ∧ q (.ofNat (r.plannedBits + 4000000)) ≤ q (.ofNat (r.plannedBits + 3999999)) ∧
      q 0 ≤ q Int64.minValue := by
  intro settings picture
  have hvalid : settings.violation? true = none := Settings.violation?_standard 0.0 0
  have hp : (Policy.ofSettings settings : Attempt (Event ℝ ℝ) (Fault ℝ ℝ) _).outcome = .ok (.constant settings) :=
    Policy.ofSettings_constant rfl rfl
  have htable : ((⟨[(0, picture), (1, picture)]⟩ : Log ℝ).table settings.maxBFrames settings.mbCount :
      Except (Fault ℝ ℝ) _) = .ok [picture, picture] :=
    Log.table_of_inside _ (by simp) (by simp [settings, Settings.standard])
  obtain ⟨first, r, st, hplan, hleast, hgreatest⟩ := plan_two_pictures
  have hcreate := create_of_plan hvalid hp htable hplan
  have htolerance : settings.tolerance.toInt = 4000000 := by decide
  have hwanted : (Int64.ofNat r.plannedBits).toInt = r.plannedBits := Int64.toInt_ofNat_of_lt (by omega)
  have hinside {total : Int64} (h : 0 ≤ total.toInt) : ¬ Wraps total (.ofNat r.plannedBits) := by
    have hlt := total.toInt_lt
    rw [Wraps, hwanted]
    omega
  have hdrift {total : Int64} (h : 0 ≤ total.toInt) :
      drift total (.ofNat r.plannedBits) = total.toInt - r.plannedBits := by
    rw [drift_of_not_wraps (hinside h), hwanted]
  have hbefore : (Int64.ofNat (r.plannedBits + 3999999)).toInt = r.plannedBits + 3999999 :=
    Int64.toInt_ofNat_of_lt (by omega)
  have hafter : (Int64.ofNat (r.plannedBits + 4000000)).toInt = r.plannedBits + 4000000 :=
    Int64.toInt_ofNat_of_lt (by omega)
  have hnothing : drift 0 (.ofNat r.plannedBits) = -r.plannedBits := by
    rw [hdrift (by decide)]
    exact zero_sub _
  obtain ⟨q, hanswer, -, hq⟩ := estimate_mono hcreate (f := { picture := 1 }) rfl (.inl rfl)
  rw [htolerance] at hq
  refine ⟨_, r, q, hcreate, rfl, hleast, hgreatest, hanswer [] false, ?_, ?_, ?_⟩
  · -- At the start the whole tolerance is left.
    have hboth := (hq 0 1000000 (by decide)).1 (iff_of_false (hinside (by decide)) (hinside (by decide)))
    refine hboth.rises fun hover => ?_
    have hlow := hover.2.1
    rw [hnothing] at hlow
    omega
  · have hle : Int64.ofNat (r.plannedBits + 3999999) ≤ .ofNat (r.plannedBits + 4000000) := by
      rw [Int64.le_iff_toInt_le, hbefore, hafter]
      omega
    have hboth := (hq _ _ hle).1 (iff_of_false (hinside (by omega)) (hinside (by omega)))
    refine hboth.falls ⟨?_, ?_, ?_⟩
    · rw [hdrift (by omega), hbefore]
      omega
    · rw [hdrift (by omega), hbefore]
      omega
    · rw [hdrift (by omega), hafter]
      omega
  · have hwraps : Wraps Int64.minValue (.ofNat r.plannedBits) := by
      rw [Wraps, hwanted, Int64.toInt_minValue]
      omega
    have hjust := (hq Int64.minValue 0 (by decide)).2 fun h => hinside (by decide) (h.1 hwraps)
    refine hjust.rises fun hover => ?_
    have hlow := hover.2.1
    rw [hnothing] at hlow
    omega

/-- The last bit of the tolerance leads from the greatest quantizer of all to one of 1000. -/
theorem estimate_falls_at_tolerance :
    let settings : Settings ℚ :=
      { Settings.standard with
        equation := some "1", blur := 0.0
        quantizer := { QuantizerSettings.ofRange 2 31 with lmin := 1, lmax := 32767 } }
    let log : Log ℚ := ⟨[(0, { quantizer := 236, plannedQuantizer := 236 })]⟩
    ∃ (s : Session ℚ ℚ) (d d' : Decision ℚ),
      (create settings (some log) : Attempt (Event ℚ ℚ) (Fault ℚ ℚ) _).outcome = .ok s ∧
      (s.estimate { picture := 0, totalBits := 3999999 } false).value.1 = .ok d ∧
      (s.estimate { picture := 0, totalBits := 4000000 } false).value.1 = .ok d' ∧
      d.quantizer = 32767 ∧ d'.quantizer = 1000 := by
  intro settings log
  have h : (create settings (some log) : Attempt (Event ℚ ℚ) (Fault ℚ ℚ) _).outcome.toOption.any (fun s =>
      (s.estimate { picture := 0, totalBits := 3999999 } false).value.1.toOption.any fun d =>
        (s.estimate { picture := 0, totalBits := 4000000 } false).value.1.toOption.any fun d' =>
          Decidable.decide (d.quantizer = 32767 ∧ d'.quantizer = 1000)) = true := by decide +kernel
  obtain ⟨s, hs, h⟩ := Attempt.exists_ok_of_any h
  obtain ⟨d, hd, h⟩ := Attempt.exists_ok_of_any h
  obtain ⟨d', hd', h⟩ := Attempt.exists_ok_of_any h
  exact ⟨s, d, d', hs, hd, hd', of_decide_eq_true h⟩

end Session
end RateControl
