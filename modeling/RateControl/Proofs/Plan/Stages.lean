-- SUMMARY: Every stage of a trial keeps the order of quantizers, over the real numbers.
import RateControl.Proofs.Exact
import RateControl.Plan.Trial
import RateControl.Proofs.Blur
import RateControl.Proofs.Grant
import RateControl.Proofs.Shaping

/-! # Stages of a trial

More bits lead to lower quantizers, and from there on each stage of a trial keeps the order: offsets, limits
and blur take lower quantizers to lower ones, and so does the shaping that follows. None of the stages here
leaves the quantizers from 1 on. -/

namespace RateControl

open scoped Exact

variable [Precision ℝ ℝ] [Precision.IsRounding]

/-! ## Bits -/

/-- A record of a picture that was coded: its quantizer is positive, and its texture is not negative. -/
structure Record.IsCoded (r : Record ℝ) : Prop where
  quantizer_pos : 0 < r.quantizer
  texture_nonneg : 0 ≤ r.intraBits.toInt + r.predictedBits.toInt

theorem Record.IsCoded.textureScale_pos {r : Record ℝ} (h : r.IsCoded) : (0 : ℝ) < r.textureScale := by
  have htexture : (0 : ℝ) ≤ r.intraBits.toInt + r.predictedBits.toInt := by
    exact_mod_cast h.texture_nonneg
  simp only [textureScale, Precision.IsRounding.widen_eq, Exact.ofInt_eq]
  norm_num
  exact mul_pos h.quantizer_pos (by linarith)

/-- A directive that leaves some bits. -/
def Directive.IsPositive (d : Directive ℝ) : Prop :=
  match d.action with
  | .force q => 0 < q.toInt
  | .scale x => 0 < x

namespace Policy

omit [Precision ℝ ℝ] [Precision.IsRounding] in
theorem scaledBits_mono (value : ℝ) {factor₁ factor₂ : ℝ} (hpos : 0 ≤ factor₁) (hle : factor₁ ≤ factor₂) :
    1 ≤ scaledBits value factor₁ ∧ scaledBits value factor₁ ≤ scaledBits value factor₂ := by
  rw [scaledBits_eq, scaledBits_eq]
  refine ⟨by linarith [le_max_right (value * factor₁) 0], ?_⟩
  obtain hvalue | hvalue := le_total 0 value
  · gcongr
  · have hle : value * factor₁ ≤ 0 := mul_nonpos_of_nonpos_of_nonneg hvalue hpos
    rw [max_eq_right hle]
    linarith [le_max_right (value * factor₂) 0]

theorem direct_mono {d : Directive ℝ} (hd : d.IsPositive) {r : Record ℝ} (hr : r.IsCoded) {x y : ℝ}
    (hpos : 0 < x) (hle : x ≤ y) :
    0 < (direct r x d).value ∧ (direct r x d).value ≤ (direct r y d).value := by
  unfold Directive.IsPositive at hd
  unfold direct
  cases haction : d.action with
  | force q =>
    rw [haction] at hd
    have hq : (0 : ℝ) < q.toInt := by exact_mod_cast hd
    exact ⟨div_pos hr.textureScale_pos hq, le_rfl⟩
  | scale z =>
    rw [haction] at hd
    simp only [Logged.value_pure, Precision.IsRounding.widen_eq]
    exact ⟨mul_pos hpos hd, mul_le_mul_of_nonneg_right hle hd.le⟩

theorem directAll_mono {p : Policy ℝ} (hp : ∀ d ∈ p.directives, d.IsPositive) {r : Record ℝ}
    (hr : r.IsCoded) (picture : Nat) {x y : ℝ} (hpos : 0 < x) (hle : x ≤ y) :
    0 < (p.directAll r picture x).value ∧
      (p.directAll r picture x).value ≤ (p.directAll r picture y).value := by
  simp only [directAll, Logged.value_fold]
  have hds : ∀ d ∈ p.directives.filter (·.contains picture), d.IsPositive :=
    fun d hd => hp d (List.mem_of_mem_filter hd)
  generalize p.directives.filter (·.contains picture) = ds at hds ⊢
  induction ds generalizing x y with
  | nil => exact ⟨hpos, hle⟩
  | cons d rest ih =>
    rw [List.forall_mem_cons] at hds
    obtain ⟨hpos', hle'⟩ := direct_mono hds.1 hr hpos hle
    exact ih hpos' hle' hds.2

/-! ## Grants -/

/-- The quantizer that is granted: over the real numbers there is always one. -/
noncomputable def granted (p : Policy ℝ) (sums : PerType (Sums ℝ)) (factor : ℝ) (a : Record ℝ × Nat) : ℝ :=
  let value := (p.equation.eval (p.symbolValue sums a.1) a.1 : Logged (Event ℝ ℝ) ℝ).value
  History.atLeastOne <| offsetAlone p.settings.quantizer a.1.pictureType <|
    a.1.textureScale / (p.directAll a.1 a.2 (scaledBits value factor)).value

omit [Precision.IsRounding] in
theorem outcome_grant (p : Policy ℝ) (sums : PerType (Sums ℝ)) (factor : ℝ) (a : Record ℝ × Nat) :
    ∃ g, (p.grant sums a.1 factor a.2 : Attempt (Event ℝ ℝ) (Fault ℝ ℝ) _).outcome = .ok g ∧
      g.quantizer = p.granted sums factor a := by
  refine ⟨_, outcome_grant_of_value rfl factor a.2, ?_⟩
  rfl

end Policy

theorem Policy.offsetAlone_mono (s : QuantizerSettings ℝ) (t : PictureType) {x y : ℝ} (hle : x ≤ y) :
    offsetAlone s t x ≤ offsetAlone s t y := by
  unfold offsetAlone
  split
  · next f o _ =>
    simp only [Precision.IsRounding.widen_eq]
    split
    · next hf =>
      have hf : f < 0 := by
        norm_num at hf
        exact hf
      have hscaled := mul_le_mul_of_nonneg_right hle (neg_nonneg.2 hf.le)
      linarith
    · exact hle
  · exact hle

/-- A greater rate factor grants a lower quantizer. -/
theorem Policy.granted_antitone {p : Policy ℝ} (hp : ∀ d ∈ p.directives, d.IsPositive)
    (sums : PerType (Sums ℝ)) {factor₁ factor₂ : ℝ} (hpos : 0 ≤ factor₁) (hle : factor₁ ≤ factor₂)
    {a : Record ℝ × Nat} (ha : a.1.IsCoded) :
    1 ≤ p.granted sums factor₂ a ∧ p.granted sums factor₂ a ≤ p.granted sums factor₁ a := by
  simp only [granted, History.atLeastOne_eq]
  generalize (p.equation.eval (p.symbolValue sums a.1) a.1 : Logged (Event ℝ ℝ) ℝ).value = value
  obtain ⟨hone, hbits⟩ := scaledBits_mono value hpos hle
  obtain ⟨hbits₁, hbits⟩ := directAll_mono hp ha a.2 (zero_lt_one.trans_le hone) hbits
  refine ⟨le_max_left _ _, max_le_max_left _ (offsetAlone_mono _ _ ?_)⟩
  exact div_le_div_of_nonneg_left ha.textureScale_pos.le hbits₁ hbits

/-! ## Histories -/

namespace History

/-- Every last quantizer of `h` is at most that of `k`. -/
structure Below (h k : History ℝ) : Prop where
  reference_eq : h.reference = k.reference
  last_le : ∀ t, h.last.get t ≤ k.last.get t

variable {h k : History ℝ}

omit [Precision ℝ ℝ] [Precision.IsRounding] in
theorem Below.refl (h : History ℝ) : h.Below h := ⟨rfl, fun _ => le_rfl⟩

omit [Precision ℝ ℝ] [Precision.IsRounding] in
theorem Below.set (hbelow : h.Below k) (t : PictureType) {x y : ℝ} (hle : x ≤ y) (u : PictureType) :
    (h.last.set t x).get u ≤ (k.last.set t y).get u := by
  by_cases hu : u = t
  · subst hu
    simpa using hle
  · rw [PerType.get_set_of_ne _ _ hu, PerType.get_set_of_ne _ _ hu]
    exact hbelow.last_le u

omit [Precision ℝ ℝ] [Precision.IsRounding] in
theorem Below.record (hbelow : h.Below k) (t : PictureType) {x y : ℝ} (hle : x ≤ y) :
    (h.record t x).Below (k.record t y) := by
  refine ⟨?_, hbelow.set t hle⟩
  simp only [History.record, hbelow.reference_eq]

omit [Precision ℝ ℝ] [Precision.IsRounding] in
theorem Below.referenceQuantizer_le (hbelow : h.Below k) :
    h.referenceQuantizer ≤ k.referenceQuantizer := by
  unfold referenceQuantizer
  rw [hbelow.reference_eq]
  cases k.reference with
  | none => exact le_rfl
  | some t => exact hbelow.last_le t

theorem Below.derived_le (hbelow : h.Below k) (s : QuantizerSettings ℝ) (t : PictureType) {x y : ℝ}
    (hle : x ≤ y) : h.derived s t x ≤ k.derived s t y := by
  unfold derived
  rw [hbelow.reference_eq]
  cases t with
  | intra =>
    dsimp only
    split
    · simp only [Precision.IsRounding.widen_eq, Exact.abs_eq]
      have := mul_le_mul_of_nonneg_right (hbelow.last_le .predicted) (abs_nonneg s.intraFactor)
      linarith
    · exact hle
  | bidirectional =>
    dsimp only
    split
    · next hf =>
      have hf : 0 < s.bidirectionalFactor := by
        norm_num at hf
        exact hf
      simp only [Precision.IsRounding.widen_eq]
      have := mul_le_mul_of_nonneg_right hbelow.referenceQuantizer_le hf.le
      linarith
    · exact hle
  | _ => exact hle

/-- The limit of a lower history to a lower quantizer is lower. It stays from 1 on if the last quantizer of
    the type is. -/
theorem Below.limit (hbelow : h.Below k) {s : QuantizerSettings ℝ} (hs : 0 ≤ s.maxStep.toInt)
    {t : PictureType} (hlast : 1 ≤ h.last.get t) {x y : ℝ} (hle : x ≤ y) :
    1 ≤ (h.limit s t x).1 ∧ (h.limit s t x).1 ≤ (k.limit s t y).1 ∧
      (h.limit s t x).2.Below (k.limit s t y).2 := by
  have hq : max 1 (h.derived s t x) ≤ max 1 (k.derived s t y) :=
    max_le_max_left _ (hbelow.derived_le s t hle)
  have hone : 1 ≤ max 1 (h.derived s t x) := le_max_left _ _
  suffices hlimit : 1 ≤ (h.limit s t x).1 ∧ (h.limit s t x).1 ≤ (k.limit s t y).1 from
    ⟨hlimit.1, hlimit.2, hbelow.record t hlimit.2⟩
  simp only [History.limit, atLeastOne_eq, hbelow.reference_eq]
  split
  · have hstep : (0 : ℝ) ≤ maxStep s := maxStep_nonneg hs
    rw [stepped_eq hstep, stepped_eq hstep]
    refine ⟨le_max_of_le_right (le_min hone (by linarith)), ?_⟩
    have := hbelow.last_le t
    exact max_le_max (by linarith) (min_le_min hq (by linarith))
  · exact ⟨hone, hq⟩

end History

/-! ## Curves -/

section Curves

variable {α β : Type}

omit [Precision ℝ ℝ] [Precision.IsRounding]

theorem forall₂_zipIdx {R : α → β → Prop} {l : List α} {m : List β} (h : List.Forall₂ R l m) (n : Nat) :
    List.Forall₂ (fun a b => R a.1 b.1 ∧ a.2 = b.2) (l.zipIdx n) (m.zipIdx n) := by
  induction h generalizing n with
  | nil => exact .nil
  | cons hab _ ih => exact .cons ⟨hab, rfl⟩ (ih (n + 1))

/-- The lists have the same tags, and every value of `l` is from 1 on and at most that of `m`. -/
def TagsBelow (l m : List (α × ℝ)) : Prop :=
  List.Forall₂ (fun a b => a.1 = b.1 ∧ 1 ≤ a.2 ∧ a.2 ≤ b.2) l m

theorem TagsBelow.zip (tags : List α) {xs ys : List ℝ}
    (h : List.Forall₂ (fun x y => 1 ≤ x ∧ x ≤ y) xs ys) : TagsBelow (tags.zip xs) (tags.zip ys) := by
  induction h generalizing tags with
  | nil => simp [TagsBelow]
  | cons hxy _ ih =>
    cases tags with
    | nil => exact .nil
    | cons t rest => exact .cons ⟨rfl, hxy⟩ (ih rest)

theorem TagsBelow.one_le {l m : List (α × ℝ)} (h : TagsBelow l m) : ∀ a ∈ l, 1 ≤ a.2 := by
  induction h with
  | nil => simp
  | cons hab _ ih => exact List.forall_mem_cons.2 ⟨hab.2.1, ih⟩

/-- Lists in order, as values at the positions of one list of tags. -/
theorem TagsBelow.exists_ofFn {l m : List (α × ℝ)} (h : TagsBelow l m) :
    ∃ (n : ℕ) (tags : Fin n → α) (x y : Fin n → ℝ), l = List.ofFn (fun j => (tags j, x j)) ∧
      m = List.ofFn (fun j => (tags j, y j)) ∧ ∀ j, 1 ≤ x j ∧ x j ≤ y j := by
  induction h with
  | nil => exact ⟨0, Fin.elim0, Fin.elim0, Fin.elim0, rfl, rfl, fun j => j.elim0⟩
  | @cons a b _ _ hab _ ih =>
    obtain ⟨n, tags, x, y, rfl, rfl, hxy⟩ := ih
    obtain ⟨htag, hvalues⟩ := hab
    refine ⟨n + 1, Fin.cons a.1 tags, Fin.cons a.2 x, Fin.cons b.2 y, ?_, ?_, Fin.cases hvalues hxy⟩
    · simp [List.ofFn_succ]
    · simp [List.ofFn_succ, htag]

namespace Blur

theorem smooth_below {reach : Nat} (blur : ℝ) {l m : Curve ℝ} (hl : l.length + reach ≤ 2 ^ 63) (h : TagsBelow l m) :
    List.Forall₂ (fun x y => 1 ≤ x ∧ x ≤ y) (smooth reach blur l) (smooth reach blur m) := by
  obtain ⟨n, types, x, y, rfl, rfl, hxy⟩ := h.exists_ofFn
  rw [List.length_ofFn] at hl
  rw [smooth_eq hl, smooth_eq hl, List.forall₂_iff_get]
  refine ⟨by simp, fun k hk _ => ?_⟩
  simp only [List.get_eq_getElem, List.getElem_ofFn]
  obtain ⟨⟨j, -, hlow⟩, -⟩ := weightedMean_between reach blur types x ⟨k, by simpa using hk⟩
  exact ⟨(hxy j).1.trans hlow, weightedMean_mono reach blur types x _ fun j _ => (hxy j).2⟩

end Blur

end Curves

end RateControl
