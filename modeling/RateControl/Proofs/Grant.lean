-- SUMMARY: A forced quantizer comes back whatever the rate equation says, divided by the factors behind it; other directives multiply the bits.
import RateControl.Proofs.Exact
import RateControl.Grant
import RateControl.Proofs.Directive
import RateControl.Proofs.History
import RateControl.Proofs.Session.Run

/-! # Grants under directives

The directives for a picture are followed one after the other. One that forces a quantizer sets the bits anew, so
nothing before it has a part in the grant, and neither has the rate equation. The bits that it sets are those of
the quantizer, so it comes back at the end. -/

namespace RateControl

variable {σ δ K : Type}

/-- The pictures of a type have a negative factor `f` and an offset `o` of their own. -/
def QuantizerSettings.StandsAlone [Scalar σ] (s : QuantizerSettings σ) (t : PictureType) (f o : σ) : Prop :=
  s.factorOffset t = some (f, o) ∧ f < 0.0

namespace Policy

variable [Scalar δ] [Precision σ δ]

/-! ## Bits -/

/-- The bits that directives make of bits. -/
def directed (r : Record σ) (ds : List (Directive σ)) (bits : δ) : δ :=
  ds.foldl (fun bits d => (direct r bits d).value) bits

theorem value_directAll (p : Policy σ) (r : Record σ) (picture : Nat) (bits : δ) :
    (p.directAll r picture bits).value = directed r (p.directives.filter (·.contains picture)) bits :=
  Logged.value_fold _ _ _

/-- A directive that forces a quantizer leaves nothing of what was before it. -/
theorem directed_of_force (r : Record σ) (before after : List (Directive σ)) {d : Directive σ} {q : Int32}
    (hd : d.action = .force q) (bits : δ) :
    directed r (before ++ d :: after) bits = directed r after (r.textureScale / Scalar.ofInt q.toInt) := by
  simp only [directed, List.foldl_append, List.foldl_cons, direct, hd]
  rfl

theorem directed_of_scales (r : Record σ) {ds : List (Directive σ)} {xs : List σ}
    (hds : ds.map (·.action) = xs.map .scale) (bits : δ) :
    directed r ds bits = xs.foldl (fun bits x => bits * widen x) bits := by
  induction ds generalizing xs bits with
  | nil =>
    obtain rfl := List.map_eq_nil_iff.1 hds.symm
    rfl
  | cons d rest ih =>
    obtain ⟨x, xs, rfl, hx, hrest⟩ := List.map_eq_cons_iff.1 hds.symm
    rw [List.foldl_cons, ← ih hrest.symm]
    simp only [directed, List.foldl_cons, direct, ← hx]
    rfl

/-! ## Quantizers -/

section Quantizers

variable [Scalar σ]

/-- The value of the rate equation for a picture. -/
def equationValue (p : Policy σ) (sums : PerType (Sums δ)) (r : Record σ) : δ :=
  (p.equation.eval (p.symbolValue sums r) r : Logged (Event σ δ) δ).value

/-- The quantizer that a picture is granted for its bits. -/
def quantizerOf (s : QuantizerSettings σ) (r : Record σ) (bits : δ) : δ :=
  History.atLeastOne (offsetAlone s r.pictureType (r.textureScale / bits))

/-- Where the rate equation has a value, a picture is granted the quantizer of its bits. -/
theorem outcome_grant_of_value {p : Policy σ} {sums : PerType (Sums δ)} {r : Record σ}
    (h : Scalar.isNaN (p.equationValue sums r) = false) (factor : δ) (picture : Nat) :
    (p.grant sums r factor picture : Attempt (Event σ δ) (Fault σ δ) _).outcome =
      .ok ⟨p.equationValue sums r, quantizerOf p.settings.quantizer r
        (p.directAll r picture (scaledBits (p.equationValue sums r) factor)).value⟩ := by
  unfold equationValue at h ⊢
  rw [grant, Attempt.outcome_bind, Attempt.outcome_ofLogged]
  simp only [bind, Except.bind]
  rw [if_neg (by simp [h])]
  rfl

/-- Where it has none, there is no grant. -/
theorem outcome_grant_of_isNaN {p : Policy σ} {sums : PerType (Sums δ)} {r : Record σ}
    (h : Scalar.isNaN (p.equationValue sums r) = true) (factor : δ) (picture : Nat) :
    (p.grant sums r factor picture : Attempt (Event σ δ) (Fault σ δ) _).outcome =
      .error (.equationNaN p.equation.source) := by
  unfold equationValue at h
  rw [grant, Attempt.outcome_bind, Attempt.outcome_ofLogged]
  simp only [bind, Except.bind]
  rw [if_pos h]
  rfl

theorem quantizerOf_of_standsAlone {s : QuantizerSettings σ} {r : Record σ} {f o : σ}
    (h : s.StandsAlone r.pictureType f o) (bits : δ) :
    quantizerOf s r bits = History.atLeastOne (-(r.textureScale / bits) * widen f + widen o) := by
  simp only [quantizerOf, offsetAlone, h.1, if_pos h.2]

theorem quantizerOf_of_not_standsAlone {s : QuantizerSettings σ} {r : Record σ}
    (h : ∀ f o, ¬ s.StandsAlone r.pictureType f o) (bits : δ) :
    quantizerOf s r bits = History.atLeastOne (r.textureScale / bits) := by
  unfold quantizerOf offsetAlone
  split
  · next f o hfo => rw [if_neg fun hf => h f o ⟨hfo, hf⟩]
  · rfl

end Quantizers

/-! ## Exact arithmetic -/

section Exact

open scoped Exact

variable [Field K] [LinearOrder K] [FloorRing K] [Transcendental K]

theorem scaledBits_eq [IsStrictOrderedRing K] (value factor : K) :
    scaledBits value factor = max (value * factor) 0 + 1 := by
  simp only [scaledBits]
  norm_num
  split
  · next h => rw [max_eq_right h.le]
  · next h => rw [max_eq_left (not_lt.1 h)]

variable [Precision σ K]

theorem directed_of_scales_exact (r : Record σ) {ds : List (Directive σ)} {xs : List σ}
    (hds : ds.map (·.action) = xs.map .scale) (bits : K) :
    directed r ds bits = bits * (xs.map widen).prod := by
  rw [directed_of_scales r hds]
  clear hds
  induction xs generalizing bits with
  | nil => simp
  | cons x xs ih => rw [List.foldl_cons, ih, List.map_cons, List.prod_cons, mul_assoc]

/-- The bits of a forced quantizer lead back to it. -/
theorem textureScale_div_directed {r : Record σ} (hr : (r.textureScale : K) ≠ 0)
    (before : List (Directive σ)) {d : Directive σ} {q : Int32} (hd : d.action = .force q)
    {after : List (Directive σ)} {xs : List σ} (hafter : after.map (·.action) = xs.map .scale) (bits : K) :
    r.textureScale / directed r (before ++ d :: after) bits = q.toInt / (xs.map widen).prod := by
  rw [directed_of_force r before after hd, directed_of_scales_exact r hafter, div_mul_eq_div_div,
    div_div_cancel₀ hr]
  rfl

end Exact

/-! ## Grants -/

variable [Scalar σ]

open scoped Exact in
/-- What directives make of the grant of a picture. Those that are not for the picture have no part in it. Behind
    one that forces a quantizer, the grant depends neither on the rate equation, the factor, the sums nor on the
    directives before it. Where none forces one, the bits that the equation grants are multiplied by all factors.
    In exact arithmetic a forced quantizer comes back, divided by the factors behind it. I and B pictures with a
    negative factor of their own take the quantizer times this factor, and all quantizers end up from 1 on. -/
theorem grant_directed [Field K] [LinearOrder K] [IsStrictOrderedRing K] [FloorRing K] [Transcendental K]
    [Precision σ K] (p : Policy σ) (r : Record σ) (picture : Nat) :
    let s := p.settings.quantizer
    let t := r.pictureType
    let ds := p.directives.filter (·.contains picture)
    (∀ (sums : PerType (Sums δ)) (factor : δ),
      ({ p with directives := ds }.grant sums r factor picture : Attempt (Event σ δ) (Fault σ δ) _) =
        p.grant sums r factor picture) ∧
    (∀ (before after : List (Directive σ)) (d : Directive σ) (q : Int32),
      ds = before ++ d :: after → d.action = .force q →
      ∃ x : δ, ∀ (p' : Policy σ) (before' : List (Directive σ)) (sums : PerType (Sums δ)) (factor : δ),
        p'.settings.quantizer = s → p'.directives.filter (·.contains picture) = before' ++ d :: after →
        Scalar.isNaN (p'.equationValue sums r) = false →
        (p'.grant sums r factor picture : Attempt (Event σ δ) (Fault σ δ) _).outcome.map (·.quantizer) = .ok x) ∧
    (∀ (sums : PerType (Sums δ)) (factor : δ), Scalar.isNaN (p.equationValue sums r) = false →
      let granted := (p.grant sums r factor picture : Attempt (Event σ δ) (Fault σ δ) _).outcome.map (·.quantizer)
      let bits := (p.directAll r picture (scaledBits (p.equationValue sums r) factor)).value
      (∀ xs : List σ, ds.map (·.action) = xs.map .scale →
        bits = xs.foldl (fun bits x => bits * widen x) (scaledBits (p.equationValue sums r) factor)) ∧
      (∀ f o, s.StandsAlone t f o →
        granted = .ok (History.atLeastOne (-(r.textureScale / bits) * widen f + widen o))) ∧
      ((∀ f o, ¬ s.StandsAlone t f o) → granted = .ok (History.atLeastOne (r.textureScale / bits)))) ∧
    (∀ (sums : PerType (Sums K)) (factor : K),
      let granted := (p.grant sums r factor picture : Attempt (Event σ K) (Fault σ K) _).outcome.map (·.quantizer)
      let bits := (p.directAll r picture (scaledBits (p.equationValue sums r) factor)).value
      (∀ xs : List σ, ds.map (·.action) = xs.map .scale →
        bits = (max (p.equationValue sums r * factor) 0 + 1) * (xs.map widen).prod) ∧
      ∀ (before after : List (Directive σ)) (d : Directive σ) (q : Int32) (xs : List σ),
        ds = before ++ d :: after → d.action = .force q →
        after.map (·.action) = xs.map .scale → 0 < (r.textureScale : K) → (∀ x ∈ xs, 0 < (widen x : K)) →
        let quantizer := (q.toInt : K) / (xs.map widen).prod
        ((∀ f o, ¬ s.StandsAlone t f o) →
          granted = .ok (max 1 quantizer) ∧ (xs = [] → 0 < q.toInt → granted = .ok (q.toInt : K))) ∧
        ∀ f o, s.StandsAlone t f o → granted = .ok (max 1 (-quantizer * widen f + widen o))) ∧
    ∀ settings : Settings σ, (ofSettings settings : Attempt (Event σ δ) (Fault σ δ) _).outcome = .ok p →
      ∀ d ∈ p.directives, ∀ q, d.action = .force q → 0 < q.toInt := by
  intro s t ds
  refine ⟨fun sums factor => ?_, fun before after d q hds hd => ?_, fun sums factor hvalue => ?_,
    fun sums factor => ?_, fun settings hp d hd q hq => ?_⟩
  · simp only [grant, directAll, ds, List.filter_filter, Bool.and_self]
    rfl
  · -- The bits from the forced quantizer on are all that is left of both policies.
    refine ⟨quantizerOf s r (directed r after (r.textureScale / Scalar.ofInt q.toInt)), ?_⟩
    intro p' before' sums factor hs hds' hvalue
    rw [outcome_grant_of_value hvalue, hs, value_directAll, hds', directed_of_force r before' after hd]
    rfl
  · intro granted bits
    have hgranted : granted = .ok (quantizerOf s r bits) := by
      simp only [granted, outcome_grant_of_value hvalue]
      rfl
    refine ⟨fun xs hxs => ?_, fun f o hfo => ?_, fun hplain => ?_⟩
    · rw [← directed_of_scales r hxs, ← value_directAll]
    · rw [hgranted, quantizerOf_of_standsAlone hfo]
    · rw [hgranted, quantizerOf_of_not_standsAlone hplain]
  · intro granted bits
    have hgranted : granted = .ok (quantizerOf s r bits) := rfl
    refine ⟨fun xs hxs => ?_, fun before after d q xs hds hd hafter hr _ => ?_⟩
    · rw [← scaledBits_eq, ← directed_of_scales_exact r hxs, ← value_directAll]
    · -- The bits of the forced quantizer are `textureScale / q`, and the quotient by them is `q` again.
      have hback : r.textureScale / bits = q.toInt / (xs.map widen).prod := by
        have hbits : bits = directed r ds (scaledBits (p.equationValue sums r) factor) := value_directAll _ _ _ _
        rw [hbits, hds]
        exact textureScale_div_directed hr.ne' before hd hafter _
      refine ⟨fun hplain => ?_, fun f o hfo => ?_⟩
      · rw [quantizerOf_of_not_standsAlone hplain, History.atLeastOne_eq, hback] at hgranted
        refine ⟨hgranted, fun hxs hq => ?_⟩
        have hone : (1 : K) ≤ q.toInt := by exact_mod_cast hq
        rw [hgranted, hxs, List.map_nil, List.prod_nil, div_one, max_eq_right hone]
      · rw [hgranted, quantizerOf_of_standsAlone hfo, History.atLeastOne_eq, hback]
  · obtain ⟨n, hn⟩ := Directive.orders_of_readDirectives (ofSettings_ok hp).2 d hd
    rw [hq] at hn
    cases hn with
    | force hpos => exact hpos

open scoped Exact in
/-- A forced quantizer and a factor of one half for pictures of both ranges. A P picture of both gets twice the
    quantizer, at any two factors. -/
theorem grant_directed_both_ranges :
    let settings : Settings ℚ :=
      { Settings.standard with equation := some "1", directives := some "0,10,700/5,20,-50" }
    let r : Record ℚ := { quantizer := 236, plannedQuantizer := 0, predictedBits := 20000 }
    ∃ p : Policy ℚ,
      (ofSettings settings : Attempt (Event ℚ ℚ) (Fault ℚ ℚ) _).outcome = .ok p ∧
      (∀ d ∈ p.directives, ∀ q, d.action = .force q → 0 < q.toInt) ∧
      (p.grant (.replicate .initial) r 2 3 : Attempt (Event ℚ ℚ) (Fault ℚ ℚ) _).outcome.map (·.quantizer) = .ok 700 ∧
      (p.grant (.replicate .initial) r 2 7 : Attempt (Event ℚ ℚ) (Fault ℚ ℚ) _).outcome.map (·.quantizer) = .ok 1400 ∧
      (p.grant (.replicate .initial) r 9 7 : Attempt (Event ℚ ℚ) (Fault ℚ ℚ) _).outcome.map (·.quantizer) = .ok 1400 := by
  intro settings r
  have h : (ofSettings settings : Attempt (Event ℚ ℚ) (Fault ℚ ℚ) _).outcome.toOption.any (fun _ => true) = true := by
    decide +kernel
  obtain ⟨p, hp, -⟩ := Attempt.exists_ok_of_any h
  obtain ⟨hsettings, hread⟩ := ofSettings_ok hp
  have hds : [⟨0, 10, .force 700⟩, ⟨5, 20, .scale (Scalar.ofInt 50 / 100.0)⟩] = p.directives := Except.ok.inj hread
  have hplain : ∀ f o, ¬ p.settings.quantizer.StandsAlone r.pictureType f o := by
    rintro f o ⟨hfo, -⟩
    cases hfo
  have hthree : p.directives.filter (·.contains 3) = [] ++ ⟨0, 10, .force 700⟩ :: [] := by
    rw [← hds]
    rfl
  have hseven : p.directives.filter (·.contains 7) =
      [] ++ ⟨0, 10, .force 700⟩ :: [⟨5, 20, .scale (Scalar.ofInt 50 / 100.0)⟩] := by
    rw [← hds]
    rfl
  have hr : (0 : ℚ) < r.textureScale := by decide +kernel
  obtain ⟨-, -, -, hthrees, hpositive⟩ := grant_directed (δ := ℚ) (K := ℚ) p r 3
  obtain ⟨-, halone, -, hsevens, -⟩ := grant_directed (δ := ℚ) (K := ℚ) p r 7
  have h3 := ((hthrees (.replicate .initial) 2).2 _ _ _ _ [] hthree rfl rfl hr (by simp)).1 hplain
  have h7 := ((hsevens (.replicate .initial) 2).2 _ _ _ _ [Scalar.ofInt 50 / 100.0] hseven rfl rfl hr
    (by decide +kernel)).1 hplain
  have hquotient :
      max 1 (((700 : Int32).toInt : ℚ) / ([(Scalar.ofInt 50 / 100.0 : ℚ)].map (widen : ℚ → ℚ)).prod) = 1400 := by
    decide +kernel
  rw [hquotient] at h7
  obtain ⟨x, hx⟩ := halone _ _ _ _ hseven rfl
  have h9 := hx p [] (.replicate .initial) 9 rfl hseven rfl
  rw [← hx p [] (.replicate .initial) 2 rfl hseven rfl, h7.1] at h9
  exact ⟨p, hp, hpositive settings hp, h3.2 rfl (by decide), h7.1, h9⟩

end Policy
end RateControl
