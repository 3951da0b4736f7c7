-- SUMMARY: A trial at a greater rate factor plans lower quantizers and a greater size.
import RateControl.Proofs.Plan.Stages
import RateControl.Proofs.Plan.Trial

/-! # Rate factors

The search relies on the planned size growing with the rate factor. Two trials from the same state are
followed side by side here. Their grants are ordered, and so are the histories and curves that come out of
the grants, picture by picture. -/

namespace RateControl

open scoped Exact

section Roundings

variable [Precision ℝ ℝ] [Precision.IsRounding]

namespace Policy

/-! ## Grants -/

omit [Precision.IsRounding] in
/-- Over the real numbers every picture is granted a quantizer. -/
theorem outcome_grantAll_real (p : Policy ℝ) (factor : ℝ) (st : State ℝ) (table : List (Record ℝ)) :
    ∃ st', (p.grantAll factor st table : Attempt (Event ℝ ℝ) (Fault ℝ ℝ) _).outcome =
        .ok (table.zipIdx.map (p.granted st.sums factor), st') ∧
      st'.history = st.history.overwrite
        ((table.map (·.pictureType)).zip (table.zipIdx.map (p.granted st.sums factor))) ∧
      st'.buffer = st.buffer := by
  choose g hg hq using p.outcome_grant st.sums factor
  have hqs : (table.zipIdx.map g).map (·.quantizer) = table.zipIdx.map (p.granted st.sums factor) := by
    rw [List.map_map]
    exact List.map_congr_left fun a _ => hq a
  rw [← hqs]
  exact ⟨_, grantAll_of_grant hg, rfl, rfl⟩

end Policy

/-! ## Histories -/

namespace History

variable {h k : History ℝ} {l m : Blur.Curve ℝ}

omit [Precision ℝ ℝ] [Precision.IsRounding] in
theorem Below.overwrite (hbelow : h.Below k) (hlm : TagsBelow l m) :
    (h.overwrite l).Below (k.overwrite m) := by
  induction hlm generalizing h k with
  | nil => exact hbelow
  | @cons a b _ _ hab _ ih =>
    obtain ⟨htype, -, hle⟩ := hab
    refine @ih { h with last := h.last.set a.1 a.2 } { k with last := k.last.set b.1 b.2 }
      ⟨hbelow.reference_eq, fun u => ?_⟩
    rw [← htype]
    exact hbelow.set a.1 hle u

end History

/-! ## Curves -/

namespace Policy

/-- The backward walk: the walks keep their histories in order, with a quantizer from 1 on for each type of
    the curve, and so the limited curves are in order. -/
theorem limitBackwards_mono {p : Policy ℝ} (hstep : 0 ≤ p.settings.quantizer.maxStep.toInt)
    {h k : History ℝ} (hbelow : h.Below k) {types : List PictureType}
    (hone : ∀ t ∈ types, 1 ≤ h.last.get t) {l m : Blur.Curve ℝ} (hlm : TagsBelow l m)
    (htypes : ∀ a ∈ l, a.1 ∈ types) :
    List.Forall₂ (fun x y => 1 ≤ x ∧ x ≤ y) (p.limitBackwards h l).1 (p.limitBackwards k m).1 ∧
      (p.limitBackwards h l).2.Below (p.limitBackwards k m).2 ∧
      ∀ t ∈ types, 1 ≤ (p.limitBackwards h l).2.last.get t := by
  induction hlm with
  | nil => exact ⟨.nil, hbelow, hone⟩
  | @cons a b _ _ hab _ ih =>
    obtain ⟨ha, hrest⟩ := List.forall_mem_cons.1 htypes
    obtain ⟨hqs, hbelow', hone'⟩ := ih hrest
    obtain ⟨htype, -, hle⟩ := hab
    obtain ⟨hq, hqle, hbelow''⟩ := hbelow'.limit hstep (hone' a.1 ha) hle
    simp only [limitBackwards, List.foldr_cons] at hqs hbelow' hone' hq hqle hbelow'' ⊢
    rw [← htype]
    refine ⟨.cons ⟨hq, hqle⟩ hqs, hbelow'', fun t ht => ?_⟩
    by_cases hta : t = a.1
    · subst hta
      simpa [History.limit, History.record] using hq
    · simpa [History.limit, History.record, PerType.get_set_of_ne _ _ hta] using hone' t ht

/-- Lower grants lead to a lower curve, from whatever history the trials start. -/
theorem curveFor_mono {p : Policy ℝ} (hstep : 0 ≤ p.settings.quantizer.maxStep.toInt) (h : History ℝ)
    (types : List PictureType) (hwindows : types.length + Blur.reach p.settings.blur ≤ 2 ^ 63) {xs ys : List ℝ}
    (hlength : types.length = xs.length) (hxy : List.Forall₂ (fun x y => 1 ≤ x ∧ x ≤ y) xs ys) :
    List.Forall₂ (fun x y => 1 ≤ x ∧ x ≤ y)
      (p.curveFor (h.overwrite (types.zip xs)) types xs)
      (p.curveFor (h.overwrite (types.zip ys)) types ys) := by
  have hgrants := TagsBelow.zip types hxy
  have hbelow := (History.Below.refl h).overwrite hgrants
  have htypes : ∀ t ∈ types, 1 ≤ (h.overwrite (types.zip xs)).last.get t := by
    intro t ht
    refine History.overwrite_induction (1 ≤ ·) hgrants.one_le (.inl ?_)
    rwa [List.map_fst_zip hlength.le]
  obtain ⟨hlimited, -, -⟩ := limitBackwards_mono hstep hbelow htypes hgrants
    fun a ha => (List.of_mem_zip ha).1
  refine Blur.smooth_below _ (le_trans (Nat.add_le_add_right ?_ _) hwindows) (TagsBelow.zip types hlimited)
  rw [List.length_zip]
  exact Nat.min_le_left _ _

/-! ## Layouts -/

omit [Precision ℝ ℝ] [Precision.IsRounding] in
theorem update_disabled {b : Buffer ℝ} (hb : b.size = 0) (bits : Int) :
    (b.update bits : Logged (Event ℝ ℝ) _).value = (0, b) := by
  have hoff : b.isEnabled = false := by simp [Buffer.isEnabled, hb]
  simp only [Buffer.update, hoff, Bool.not_false, if_true]
  rfl

/-- Every planned quantizer is from 1 on. -/
theorem one_le_replanned (p : Policy ℝ) (l : Layout ℝ ℝ) (r : Record ℝ) (q : ℝ) (i : Nat) :
    1 ≤ (p.replanned l r q i).plannedQuantizer :=
  Precision.IsRounding.one_le_narrow (p.settings.one_le_shape l.buffer r q i)

/-- At a lower quantizer the same picture is greater. -/
theorem size_antitone {r s : Record ℝ} (hr : r.IsCoded) (hsame : r.Replans s)
    (hpos : 0 < r.plannedQuantizer) (hle : r.plannedQuantizer ≤ s.plannedQuantizer) :
    (s.size : ℝ) ≤ r.size := by
  have hscale : (s.textureScale : ℝ) = r.textureScale := by rw [hsame]; rfl
  have hmotion : s.motionBits = r.motionBits := by rw [hsame]
  have hmisc : s.miscBits = r.miscBits := by rw [hsame]
  have htexture := div_le_div_of_nonneg_left hr.textureScale_pos.le hpos hle
  simp only [Record.size, Record.value_bitsAt, Precision.IsRounding.widen_eq, hscale, hmotion, hmisc]
  linarith

/-- The layout `l` has lower quantizers than `m`, and so it is the greater one. The buffer takes no part. -/
structure LayoutBelow (l m : Layout ℝ ℝ) : Prop where
  quantizers : List.Forall₂ (fun r s => r.plannedQuantizer ≤ s.plannedQuantizer) l.records m.records
  total_le : m.total ≤ l.total
  buffer_eq : l.buffer = m.buffer
  size_eq : l.buffer.size = 0

theorem LayoutBelow.layOut {p : Policy ℝ}
    (hmodulation : p.settings.modulationPeriod = 0 ∨ 0 < p.settings.modulation) {l m : Layout ℝ ℝ}
    (h : LayoutBelow l m) {r : Record ℝ} (hr : r.IsCoded) {x y : ℝ} (hone : 1 ≤ x) (hle : x ≤ y)
    (i : Nat) : LayoutBelow (p.layOut l r x i).value (p.layOut m r y i).value := by
  have hpositive : 0 < x := zero_lt_one.trans_le hone
  have hshapes := Settings.shape_mono hmodulation l.buffer hr.textureScale_pos i hpositive hle
  have hplanned : (p.replanned l r x i).plannedQuantizer ≤ (p.replanned m r y i).plannedQuantizer := by
    simp only [replanned, ← h.buffer_eq]
    exact Precision.IsRounding.narrow_mono hshapes
  have hpos : 0 < (p.replanned l r x i).plannedQuantizer := zero_lt_one.trans_le (p.one_le_replanned l r x i)
  have hsize : (p.replanned m r y i).size ≤ ((p.replanned l r x i).size : ℝ) :=
    size_antitone ⟨hr.quantizer_pos, hr.texture_nonneg⟩ rfl hpos hplanned
  have hm : m.buffer.size = 0 := h.buffer_eq ▸ h.size_eq
  rw [value_layOut, value_layOut]
  simp only [update_disabled h.size_eq, update_disabled hm]
  exact ⟨.cons hplanned h.quantizers, add_le_add h.total_le (by gcongr), h.buffer_eq, h.size_eq⟩

/-- A lower curve is laid out with lower quantizers. -/
theorem layOutAll_mono {p : Policy ℝ}
    (hmodulation : p.settings.modulationPeriod = 0 ∨ 0 < p.settings.modulation) {b : Buffer ℝ}
    (hb : b.size = 0) {table : List (Record ℝ)} (htable : ∀ r ∈ table, r.IsCoded) {xs ys : List ℝ}
    (hxy : List.Forall₂ (fun x y => 1 ≤ x ∧ x ≤ y) xs ys) :
    LayoutBelow (p.layOutAll b table xs).value (p.layOutAll b table ys).value := by
  simp only [layOutAll, Logged.value_fold]
  have hstart : LayoutBelow ⟨[], 0.0, b.halfFull⟩ ⟨[], 0.0, b.halfFull⟩ := ⟨.nil, le_rfl, rfl, hb⟩
  have hcoded (a : (Record ℝ × ℝ) × Nat) (ha : a ∈ (table.zip xs).zipIdx) : a.1.1.IsCoded :=
    htable _ (List.of_mem_zip (List.fst_mem_of_mem_zipIdx ha)).1
  have hitems := (List.forall₂_and_left _ _).2 ⟨hcoded, forall₂_zipIdx (TagsBelow.zip table hxy) 0⟩
  refine List.rel_foldl (fun l m hlm a c hac => ?_) hstart hitems
  obtain ⟨hr, ⟨hrecord, hone, hle⟩, hindex⟩ := hac
  rw [← hrecord, ← hindex]
  exact hlm.layOut hmodulation hr hone hle a.2

end Policy

/-! ## Directives -/

namespace Directive

omit [Precision ℝ ℝ] [Precision.IsRounding]

/-- A directive that was read forces a positive quantizer, or scales by no negative number. -/
theorem Orders.isPositive {d : Directive ℝ} {q : Int32} (h : Orders q d.action) (hne : d.action ≠ .scale 0) :
    d.IsPositive := by
  obtain ⟨first, last, action⟩ := d
  cases h with
  | force hq => exact hq
  | scale hq =>
    have hzero : q.toInt ≠ 0 := fun hzero => hne (by simp [hzero])
    have hpos : (0 : ℝ) < (-q.toInt : Int) := by exact_mod_cast (by omega : 0 < -q.toInt)
    exact div_pos hpos (by norm_num)

end Directive

/-! ## Trials -/

namespace Policy

omit [Precision.IsRounding] in
theorem isPositive_of_ofSettings {settings : Settings ℝ} {p : Policy ℝ}
    (hp : (ofSettings settings : Attempt (Event ℝ ℝ) (Fault ℝ ℝ) _).outcome = .ok p)
    (hne : ∀ d ∈ p.directives, d.action ≠ .scale 0) : ∀ d ∈ p.directives, d.IsPositive := by
  intro d hd
  obtain ⟨q, hq⟩ := Directive.orders_of_readDirectives (ofSettings_ok hp).2 d hd
  exact hq.isPositive (hne d hd)

/-- Without a buffer, a trial at a greater rate factor plans every picture at most at the quantizer of a trial
    from the same state at a lower one, and comes to at least its size. The windows of the blur must have ends,
    as there is no mean over a window that wraps around. -/
theorem trial_mono {settings : Settings ℝ} (hvalid : settings.violation? true = none) {p : Policy ℝ}
    (hp : (ofSettings settings : Attempt (Event ℝ ℝ) (Fault ℝ ℝ) _).outcome = .ok p)
    (hdirectives : ∀ d ∈ p.directives, d.action ≠ .scale 0)
    (hmodulation : settings.modulationPeriod = 0 ∨ 0 < settings.modulation)
    {table : List (Record ℝ)} (htable : ∀ r ∈ table, r.IsCoded)
    (hwindows : table.length + Blur.reach settings.blur ≤ 2 ^ 63) (st : State ℝ) (hbuffer : st.buffer.size = 0)
    {factor₁ factor₂ : ℝ} (hpos : 0 < factor₁) (hle : factor₁ ≤ factor₂) :
    ∃ t₁ st₁ t₂ st₂,
      (p.trial factor₁ st table : Attempt (Event ℝ ℝ) (Fault ℝ ℝ) _).outcome = .ok (t₁, st₁) ∧
      (p.trial factor₂ st table : Attempt (Event ℝ ℝ) (Fault ℝ ℝ) _).outcome = .ok (t₂, st₂) ∧
      List.Forall₂ Record.Replans table t₁.table ∧
      List.Forall₂ (fun r₂ r₁ => r₂.plannedQuantizer ≤ r₁.plannedQuantizer) t₂.table t₁.table ∧
      t₁.total ≤ t₂.total := by
  obtain ⟨hsettings, -⟩ := ofSettings_ok hp
  have hpositive := isPositive_of_ofSettings hp hdirectives
  have hstep : 0 ≤ p.settings.quantizer.maxStep.toInt := by
    rw [hsettings]
    exact settings.maxStep_nonneg hvalid
  rw [← hsettings] at hmodulation hwindows
  obtain ⟨st₁, hgrants₁, hhistory₁, hbuffer₁⟩ := p.outcome_grantAll_real factor₁ st table
  obtain ⟨st₂, hgrants₂, hhistory₂, hbuffer₂⟩ := p.outcome_grantAll_real factor₂ st table
  have hgrants : List.Forall₂ (fun x y => 1 ≤ x ∧ x ≤ y)
      (table.zipIdx.map (p.granted st.sums factor₂)) (table.zipIdx.map (p.granted st.sums factor₁)) := by
    rw [List.forall₂_map_left_iff, List.forall₂_map_right_iff, List.forall₂_same]
    exact fun a ha => granted_antitone hpositive st.sums hpos.le hle
      (htable a.1 (List.fst_mem_of_mem_zipIdx ha))
  have hcurves :=
    curveFor_mono hstep st.history (table.map (·.pictureType)) (by simpa using hwindows) (by simp) hgrants
  rw [← hhistory₁, ← hhistory₂] at hcurves
  obtain ⟨hquantizers, htotal, -, -⟩ := layOutAll_mono hmodulation hbuffer htable hcurves
  have htrial₁ := p.outcome_trial factor₁ st table
  have htrial₂ := p.outcome_trial factor₂ st table
  simp only [hgrants₁, Except.map, hbuffer₁] at htrial₁
  simp only [hgrants₂, Except.map, hbuffer₂] at htrial₂
  exact ⟨_, _, _, _, htrial₁, htrial₂, (trial_ok htrial₁).1,
    List.forall₂_reverse_iff.2 hquantizers, htotal⟩

end Policy

end Roundings

/-! ## Settings over the real numbers -/

/-- The standard settings, with an equation that needs no power, and with any modulation. -/
theorem Settings.violation?_standard (modulation : ℝ) (period : Nat) :
    ({ Settings.standard with equation := some "1", modulation, modulationPeriod := period } :
      Settings ℝ).violation? true = none := by
  rw [Settings.violation?, Option.map_eq_none_iff, List.find?_eq_none]
  simp [Settings.standard, Settings.rules, Settings.streamRules, Settings.quantizerRules,
    Settings.maskingRules, Settings.curveRules, Settings.bufferRules, Settings.lambdaRule,
    QuantizerSettings.ofRange]
  refine ⟨by decide, by decide, by decide, rfl, ⟨rfl, ?_⟩, rfl, ?_⟩
  · norm_num
  · norm_num

namespace Policy

/-- The policy of settings with the equation `1` and without directives. -/
def constant (settings : Settings ℝ) : Policy ℝ := ⟨settings, ⟨"1", .number ⟨false, 1, 0⟩⟩, []⟩

theorem ofSettings_constant {settings : Settings ℝ} (hequation : settings.equation = some "1")
    (hdirectives : settings.directives = none) :
    (ofSettings settings : Attempt (Event ℝ ℝ) (Fault ℝ ℝ) _).outcome = .ok (constant settings) := by
  have hexpr : Expr.read? (compact "1") = some (.number ⟨false, 1, 0⟩) := by decide +kernel
  have hread : Equation.read? "1" = some ⟨"1", .number ⟨false, 1, 0⟩⟩ := by rw [Equation.read?, hexpr]; rfl
  have hparse : (Equation.parse "1" : Attempt (Event ℝ ℝ) (Fault ℝ ℝ) _).outcome =
      .ok ⟨"1", .number ⟨false, 1, 0⟩⟩ := by
    rw [Equation.parse]
    simp only [hread]
    rfl
  rw [ofSettings, Attempt.outcome_tryCatch, Attempt.outcome_bind]
  simp only [Settings.equationText, hequation, Option.getD_some, readDirectives, hdirectives]
  rw [hparse]
  rfl

/-- Two P pictures between an I and a B picture, behind a P picture of another quantizer. The P pictures blur into
    each other, and the second one is modulated. -/
theorem trial_mono_four_pictures :
    let settings : Settings ℝ :=
      { Settings.standard with equation := some "1", modulation := 0.75, modulationPeriod := 2 }
    let table : List (Record ℝ) :=
      [{ pictureType := .intra, quantizer := 236, plannedQuantizer := 236, intraBits := 9999, motionBits := 100 },
       { quantizer := 236, plannedQuantizer := 236, predictedBits := 4999, motionBits := 500, miscBits := 40 },
       { quantizer := 236, plannedQuantizer := 236, predictedBits := 2999, motionBits := 500, miscBits := 40 },
       { pictureType := .bidirectional, quantizer := 236, plannedQuantizer := 236, predictedBits := 1999 }]
    let st : State ℝ := { State.initial settings with history := ⟨.replicate 1000, some .predicted⟩ }
    ∃ (p : Policy ℝ) (t₁ t₂ : Trial ℝ ℝ) (st₁ st₂ : State ℝ),
      (ofSettings settings : Attempt (Event ℝ ℝ) (Fault ℝ ℝ) _).outcome = .ok p ∧
      (p.trial 999 st table : Attempt (Event ℝ ℝ) (Fault ℝ ℝ) _).outcome = .ok (t₁, st₁) ∧
      (p.trial 1999 st table : Attempt (Event ℝ ℝ) (Fault ℝ ℝ) _).outcome = .ok (t₂, st₂) ∧
      List.Forall₂ (fun r₂ r₁ => r₂.plannedQuantizer ≤ r₁.plannedQuantizer) t₂.table t₁.table ∧
      t₁.total ≤ t₂.total := by
  intro settings table st
  have hp : (ofSettings settings : Attempt (Event ℝ ℝ) (Fault ℝ ℝ) _).outcome = .ok (constant settings) :=
    ofSettings_constant rfl rfl
  have htable : ∀ r ∈ table, r.IsCoded := by
    simp only [table, List.forall_mem_cons, List.not_mem_nil, false_imp_iff, implies_true, and_true]
    refine ⟨⟨?_, ?_⟩, ⟨?_, ?_⟩, ⟨?_, ?_⟩, ⟨?_, ?_⟩⟩ <;> first | decide | norm_num
  have hreach : Blur.reach settings.blur = 1 := by
    have hfloor : ⌊settings.blur * 4.0⌋ = 2 := by norm_num [settings, Settings.standard]
    have hwidth := Exact.toNat64_eq (settings.blur * 4.0)
    rw [hfloor] at hwidth
    have hwidth : Scalar.toNat64 (settings.blur * 4.0) = 2 := by omega
    rw [Blur.reach, hwidth]
    rfl
  have hwindows : table.length + Blur.reach settings.blur ≤ 2 ^ 63 := by
    rw [hreach]
    norm_num [table]
  obtain ⟨t₁, st₁, t₂, st₂, htrial₁, htrial₂, -, hquantizers, htotal⟩ :=
    trial_mono (Settings.violation?_standard 0.75 2) hp (by simp [constant]) (.inr (by norm_num [settings])) htable
      hwindows st rfl (by norm_num : (0 : ℝ) < 999) (by norm_num : (999 : ℝ) ≤ 1999)
  exact ⟨_, t₁, t₂, st₁, st₂, hp, htrial₁, htrial₂, hquantizers, htotal⟩

/-- The same trials in rational numbers, where the pictures of a window all have the same weight. Their ranges are
    189 to 2926, 236 to 3658 and 296 to 4574. -/
example :
    let settings : Settings ℚ :=
      { Settings.standard with equation := some "1", modulation := 0.75, modulationPeriod := 2 }
    let table : List (Record ℚ) :=
      [{ pictureType := .intra, quantizer := 236, plannedQuantizer := 236, intraBits := 9999, motionBits := 100 },
       { quantizer := 236, plannedQuantizer := 236, predictedBits := 4999, motionBits := 500, miscBits := 40 },
       { quantizer := 236, plannedQuantizer := 236, predictedBits := 2999, motionBits := 500, miscBits := 40 },
       { pictureType := .bidirectional, quantizer := 236, plannedQuantizer := 236, predictedBits := 1999 }]
    let st : State ℚ := { State.initial settings with history := ⟨.replicate 1000, some .predicted⟩ }
    let planned (factor : ℚ) := ((do
        let p ← ofSettings settings
        p.trial factor st table : Attempt (Event ℚ ℚ) (Fault ℚ ℚ) _).outcome.toOption.map fun (t, _) =>
      t.table.map (·.plannedQuantizer))
    planned 999 = some [849.6, 885, 663.75, 826] ∧ planned 1999 = some [472, 472, 354, 443.75] := by
  decide +kernel

end Policy

end RateControl
