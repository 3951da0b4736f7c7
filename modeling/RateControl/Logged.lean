-- SUMMARY: Values that come with the events noted on the way to them.

/-! # Logged values

A logged value is a value and the events that were noted while it was computed. What is computed next
sees the value only, so no value depends on an event. -/

namespace RateControl

/-- A value of type `α`, and the events noted on the way to it, latest first. -/
structure Logged (ε α : Type) where
  value : α
  trail : List ε

namespace Logged

variable {ε α β γ : Type}

/-- The events in the order in which they were noted. -/
def events (x : Logged ε α) : List ε := x.trail.reverse

instance : Monad (Logged ε) where
  pure a   := ⟨a, []⟩
  bind x f := let y := f x.value; ⟨y.value, y.trail ++ x.trail⟩

@[simp] theorem value_pure (a : α) : (pure a : Logged ε α).value = a := rfl

@[simp] theorem value_bind (x : Logged ε α) (f : α → Logged ε β) :
    (x >>= f).value = (f x.value).value := rfl

@[simp] theorem value_map (f : α → β) (x : Logged ε α) : (f <$> x).value = f x.value := rfl

/-- Notes an event. -/
def note (e : ε) : Logged ε Unit := ⟨(), [e]⟩

/-- Notes an event where the condition holds. -/
def noteIf (c : Bool) (e : ε) : Logged ε Unit := ⟨(), if c then [e] else []⟩

/-- Goes through a list from the front, carrying a state. -/
def fold (f : β → α → Logged ε β) (b : β) (l : List α) : Logged ε β :=
  l.foldl (fun x a => x >>= fun b => f b a) (pure b)

@[simp] theorem value_fold (f : β → α → Logged ε β) (b : β) (l : List α) :
    (fold f b l).value = l.foldl (fun b a => (f b a).value) b := by
  suffices ∀ x : Logged ε β, (l.foldl (fun x a => x >>= fun b => f b a) x).value =
      l.foldl (fun b a => (f b a).value) x.value from this (pure b)
  induction l with
  | nil => intro x; rfl
  | cons a l ih => intro x; simp only [List.foldl_cons, ih, value_bind]

end Logged

/-- A logged computation that may stop with a fault of type `φ`. -/
abbrev Attempt (ε φ : Type) := ExceptT φ (Logged ε)

namespace Attempt

variable {ε φ α β : Type}

/-- The outcome, without the events. -/
def outcome (x : Attempt ε φ α) : Except φ α := x.run.value

/-- A computation that cannot fault. -/
def ofLogged (x : Logged ε α) : Attempt ε φ α := ExceptT.lift x

/-- Notes an event and stops with a fault. -/
def stop (e : ε) (f : φ) : Attempt ε φ α := ⟨.error f, [e]⟩

/-- Goes through a list from the front, carrying a state, up to the first fault. -/
def fold (f : β → α → Attempt ε φ β) (b : β) (l : List α) : Attempt ε φ β :=
  l.foldl (fun x a => x >>= fun b => f b a) (pure b)

@[simp] theorem outcome_pure (a : α) : (pure a : Attempt ε φ α).outcome = .ok a := rfl

@[simp] theorem outcome_throw (e : φ) : (throw e : Attempt ε φ α).outcome = .error e := rfl

@[simp] theorem outcome_stop (e : ε) (f : φ) : (stop e f : Attempt ε φ α).outcome = .error f := rfl

@[simp] theorem outcome_ofLogged (x : Logged ε α) :
    (ofLogged x : Attempt ε φ α).outcome = .ok x.value := rfl

@[simp] theorem outcome_bind (x : Attempt ε φ α) (f : α → Attempt ε φ β) :
    (x >>= f).outcome = x.outcome >>= fun a => (f a).outcome := by
  simp only [outcome, ExceptT.run_bind, Logged.value_bind]
  cases x.run.value <;> rfl

@[simp] theorem outcome_fold (f : β → α → Attempt ε φ β) (b : β) (l : List α) :
    (fold f b l).outcome = l.foldlM (fun b a => (f b a).outcome) b := by
  suffices ∀ x : Attempt ε φ β, (l.foldl (fun x a => x >>= fun b => f b a) x).outcome =
      x.outcome >>= fun b => l.foldlM (fun b a => (f b a).outcome) b from this (pure b)
  induction l with
  | nil => intro x; simp
  | cons a l ih => intro x; simp [ih]

end Attempt
end RateControl
