-- SUMMARY: Outcomes of attempts, taken apart along their steps: results, and the faults that can occur.
import Mathlib.Data.List.Forall2
import Mathlib.Data.List.Induction
import RateControl.Logged

/-! # Outcomes

An attempt that has a result has one at every step. One that has none has the fault of one of its steps. -/

namespace RateControl

instance {ε : Type} : LawfulMonad (Logged ε) :=
  .mk' (Logged ε) (fun _ => rfl) (fun a f => by simp only [bind, pure, List.append_nil])
    (fun x f g => by simp only [bind, List.append_assoc])

namespace Attempt

variable {ε φ α β γ : Type}

/-! ## Results -/

theorem bind_ok {x : Attempt ε φ α} {f : α → Attempt ε φ β} {b : β} :
    (x >>= f).outcome = .ok b ↔ ∃ a, x.outcome = .ok a ∧ (f a).outcome = .ok b := by
  rw [outcome_bind]
  cases x.outcome with
  | error e => simp [bind, Except.bind]
  | ok a => simp [bind, Except.bind]

theorem ofExcept_ok (a : α) : (MonadExcept.ofExcept (.ok a) : Attempt ε φ α) = pure a := rfl

@[simp] theorem outcome_ofExcept (x : Except φ α) :
    (MonadExcept.ofExcept x : Attempt ε φ α).outcome = x := by
  cases x <;> rfl

@[simp] theorem outcome_tryCatch (x : Attempt ε φ α) (handle : φ → Attempt ε φ α) :
    (tryCatch x handle).outcome = tryCatch x.outcome fun e => (handle e).outcome := by
  obtain ⟨value, trail⟩ := x
  cases value <;> rfl

theorem fold_append_singleton (f : β → α → Attempt ε φ β) (b : β) (l : List α) (a : α) :
    fold f b (l ++ [a]) = fold f b l >>= fun b => f b a := by
  simp only [fold, List.foldl_append, List.foldl_cons, List.foldl_nil]

/-- What a fold brings about step by step, told of what it has gone through so far. -/
theorem fold_induction_before (P : List α → β → Prop) {f : β → α → Attempt ε φ β}
    (hstep : ∀ before a b b', P before b → (f b a).outcome = .ok b' → P (before ++ [a]) b') {b b' : β}
    (hb : P [] b) {l : List α} (h : (fold f b l).outcome = .ok b') : P l b' := by
  induction l using List.reverseRecOn generalizing b' with
  | nil =>
    cases h
    exact hb
  | append_singleton before a ih =>
    rw [fold_append_singleton] at h
    obtain ⟨next, hbefore, ha⟩ := bind_ok.1 h
    exact hstep before a next b' (ih hbefore) ha

/-- What every step of a fold keeps holds of its result. -/
theorem fold_induction (P : β → Prop) {f : β → α → Attempt ε φ β}
    (hstep : ∀ b a b', P b → (f b a).outcome = .ok b' → P b') {b b' : β} (hb : P b) {l : List α}
    (h : (fold f b l).outcome = .ok b') : P b' :=
  fold_induction_before (fun _ => P) (fun _ a b b' => hstep b a b') hb h

/-- What follows an attempt only sees its result. -/
theorem bind_congr_of_ok {x : Attempt ε φ α} {f g : α → Attempt ε φ β}
    (h : ∀ a, x.outcome = .ok a → f a = g a) : x >>= f = x >>= g := by
  obtain ⟨value, trail⟩ := x
  cases value with
  | error e => rfl
  | ok a =>
    have ha := h a rfl
    simp only [bind, ExceptT.bind, ExceptT.mk, ExceptT.bindCont, ha]

/-! ## Lists of attempts -/

/-- A list of attempts has results just if each of them has one. -/
theorem outcome_mapM_ok {f : α → Attempt ε φ β} {l : List α} {bs : List β} :
    (l.mapM f).outcome = .ok bs ↔ List.Forall₂ (fun a b => (f a).outcome = .ok b) l bs := by
  induction l generalizing bs with
  | nil =>
    rw [List.forall₂_nil_left_iff]
    constructor
    · rintro ⟨⟩
      rfl
    · rintro rfl
      rfl
  | cons a rest ih =>
    rw [List.mapM_cons, bind_ok]
    constructor
    · rintro ⟨b, hb, h⟩
      obtain ⟨bs', hbs, h⟩ := bind_ok.1 h
      cases h
      exact .cons hb (ih.1 hbs)
    · rintro (_ | ⟨hb, hrest⟩)
      exact ⟨_, hb, bind_ok.2 ⟨_, ih.2 hrest, rfl⟩⟩

theorem fold_eq_foldlM (f : β → α → Attempt ε φ β) (b : β) (l : List α) : fold f b l = l.foldlM f b := by
  suffices ∀ x : Attempt ε φ β, l.foldl (fun x a => x >>= fun b => f b a) x = x >>= fun b => l.foldlM f b by
    rw [fold, this, pure_bind]
  induction l with
  | nil => intro x; simp
  | cons a rest ih => intro x; simp [ih]

/-- A fold whose state has no part in what is attempted: first all is attempted, and then all steps are done. -/
theorem fold_eq_mapM {f : β → α → Attempt ε φ β} {g : α → Attempt ε φ γ} {next : β → α → γ → β}
    (Inv : β → Prop) (hf : ∀ b a, Inv b → f b a = next b a <$> g a)
    (hnext : ∀ b a c, Inv b → Inv (next b a c)) {b : β} (hb : Inv b) (l : List α) :
    fold f b l = (fun cs => (l.zip cs).foldl (fun b ac => next b ac.1 ac.2) b) <$> l.mapM g := by
  rw [fold_eq_foldlM]
  induction l generalizing b with
  | nil => rfl
  | cons a rest ih =>
    rw [List.foldlM_cons, hf b a hb, bind_map_left, List.mapM_cons, map_bind]
    refine bind_congr fun c => ?_
    rw [ih (hnext b a c hb)]
    simp

/-! ## Faults -/

/-- Every fault that the attempt can stop with has the property `P`. -/
def Faults (P : φ → Prop) (x : Attempt ε φ α) : Prop := ∀ e, x.outcome = .error e → P e

variable {P : φ → Prop}

theorem faults_ofLogged (x : Logged ε α) : Faults P (ofLogged x : Attempt ε φ α) := nofun

theorem faults_pure (a : α) : Faults P (pure a : Attempt ε φ α) := nofun

theorem faults_throw {f : φ} (h : P f) : Faults P (throw f : Attempt ε φ α) := by
  rintro _ ⟨⟩
  exact h

theorem faults_stop {e : ε} {f : φ} (h : P f) : Faults P (stop e f : Attempt ε φ α) := by
  rintro _ ⟨⟩
  exact h

theorem faults_bind {x : Attempt ε φ α} {f : α → Attempt ε φ β} (hx : Faults P x) (hf : ∀ a, Faults P (f a)) :
    Faults P (x >>= f) := by
  intro e h
  rw [outcome_bind] at h
  cases hxe : x.outcome with
  | error e' =>
    rw [hxe] at h
    cases h
    exact hx e hxe
  | ok a =>
    rw [hxe] at h
    exact hf a e h

theorem faults_fold {f : β → α → Attempt ε φ β} (hf : ∀ b a, Faults P (f b a)) (b : β) (l : List α) :
    Faults P (fold f b l) := by
  suffices ∀ x : Attempt ε φ β, Faults P x → Faults P (l.foldl (fun x a => x >>= fun b => f b a) x) from
    this _ nofun
  induction l with
  | nil => exact fun x hx => hx
  | cons a l ih => exact fun x hx => ih _ (faults_bind hx fun b => hf b a)

/-! ## Checks -/

/-- What a check finds out about an outcome: there is a result, and it passes. -/
theorem exists_ok_of_any {x : Except φ α} {p : α → Bool} (h : x.toOption.any p = true) :
    ∃ a, x = .ok a ∧ p a = true := by
  cases x with
  | error e => cases h
  | ok a => exact ⟨a, rfl, h⟩

end Attempt
end RateControl
