-- SUMMARY: What it takes for a parser to read a language, and chains of operands as the parser reads them.
import RateControl.Proofs.Equation.Grammar

/-! # Parsers and languages

A parser is right for a language if whatever it takes is a text of the language, and if it takes every
text of the language as a whole wherever that can end. The second half is stated for texts up to a length,
because the parsers are built up by the depth of the nesting. -/

namespace RateControl.Expr

open Grammar

variable {α β V W : Type}

/-- The text is at its end or goes on with one of the characters. -/
def GoesOn (cs : List Char) (s : List Char) : Prop := ∀ c ∈ s.head?, c ∈ cs

theorem GoesOn.nil {cs : List Char} : GoesOn cs [] := by simp [GoesOn]

theorem GoesOn.cons {cs : List Char} {c : Char} {s : List Char} (h : c ∈ cs) : GoesOn cs (c :: s) := by
  simpa [GoesOn] using h

theorem GoesOn.mono {cs ds : List Char} {s : List Char} (h : GoesOn cs s) (hsub : cs ⊆ ds) :
    GoesOn ds s := fun c hc => hsub (h c hc)

/-- All that the parser takes are texts of the language. -/
def Sound (p : Parser α) (m : α → V) (L : Phrases V) : Prop :=
  ∀ ⦃s a rest⦄, p s = some (a, rest) → ∃ w, L w (m a) ∧ s = w ++ rest

/-- The parser takes every text of the language that is shorter than `n`, if the text behind it goes on
    with one of `cs`. -/
def Complete (n : Nat) (cs : List Char) (p : Parser α) (m : α → V) (L : Phrases V) : Prop :=
  ∀ ⦃w v⦄, L w v → w.length < n → ∀ ⦃rest⦄, GoesOn cs rest → ∃ a, p (w ++ rest) = some (a, rest) ∧ m a = v

/-! ## Chains -/

/-- The separators of a chain are the operators of a rank, and combine as these do. -/
structure Implements (separator : Char → Option (α → β → α)) (m : α → V) (m' : β → W)
    (operators : Operators V W) : Prop where
  of_some : ∀ {c g}, separator c = some g →
    ∃ f, (c, f) ∈ operators ∧ ∀ a b, m (g a b) = f (m a) (m' b)
  of_mem : ∀ {c f}, (c, f) ∈ operators →
    ∃ g, separator c = some g ∧ ∀ a b, m (g a b) = f (m a) (m' b)

variable {separator : Char → Option (α → β → α)} {m : α → V} {m' : β → W} {operators : Operators V W}
  {first : Phrases V} {operand : Phrases W} {p : Parser α} {q : Parser β}

theorem chain_sound (hsep : Implements separator m m' operators) (hq : Sound q m' operand)
    {n : Nat} {a b : α} {s w rest : List Char} (ha : Chain operators first operand w (m a))
    (h : chain separator q n a s = (b, rest)) :
    ∃ u, s = u ++ rest ∧ Chain operators first operand (w ++ u) (m b) := by
  fun_induction chain separator q n a s generalizing w with
  | case1 a s =>
    cases h
    exact ⟨[], rfl, by simpa using ha⟩
  | case2 n a =>
    cases h
    exact ⟨[], rfl, by simpa using ha⟩
  | case3 n a c s hc =>
    cases h
    exact ⟨[], rfl, by simpa using ha⟩
  | case4 n a c s f hc hs =>
    cases h
    exact ⟨[], rfl, by simpa using ha⟩
  | case5 n a c s g hc b' r hs ih =>
    obtain ⟨f, hf, hm⟩ := hsep.of_some hc
    obtain ⟨t, ht, rfl⟩ := hq hs
    have hstep : Chain operators first operand (w ++ c :: t) (m (g a b')) := by
      rw [hm]
      exact ha.more hf ht
    obtain ⟨u, rfl, hu⟩ := ih hstep h
    exact ⟨c :: (t ++ u), by simp, by simpa using hu⟩

theorem chain_stops {n : Nat} {a : α} {cs rest : List Char} (hcs : ∀ c ∈ cs, separator c = none)
    (hrest : GoesOn cs rest) : chain separator q n a rest = (a, rest) := by
  cases n with
  | zero => rfl
  | succ n =>
    cases rest with
    | nil => rfl
    | cons c s => simp [chain, hcs c (hrest c (by simp))]

/-- The parser goes through a chain from the left, so behind the operands of a text of the chain it is in
    the midst of a longer chain. The induction is on the text without its last operand. -/
theorem chain_reaches {k : Nat} {ds : List Char} (hsep : Implements separator m m' operators)
    (hp : Complete k ds p m first) (hq : Complete k ds q m' operand)
    (hops : ∀ {c f}, (c, f) ∈ operators → c ∈ ds)
    {w : List Char} {v : V} (hw : Chain operators first operand w v) (hk : w.length < k)
    {rest : List Char} (hrest : GoesOn ds rest) :
    ∃ a₀ r₀ a, p (w ++ rest) = some (a₀, r₀) ∧ m a = v ∧ ∀ n, r₀.length ≤ n →
      ∃ n', rest.length ≤ n' ∧ chain separator q n a₀ r₀ = chain separator q n' a rest := by
  induction hw generalizing rest with
  | first hw =>
    obtain ⟨a, ha, hv⟩ := hp hw hk hrest
    exact ⟨a, rest, a, ha, hv, fun n hn => ⟨n, hn, rfl⟩⟩
  | @more s v c f t u hs hf ht ih =>
    have hlen : s.length + (t.length + 1) < k := by simpa using hk
    obtain ⟨g, hg, hm⟩ := hsep.of_mem hf
    obtain ⟨b, hb, hu⟩ := hq ht (by omega) hrest
    have hgoes : GoesOn ds (c :: (t ++ rest)) := .cons (hops hf)
    obtain ⟨a₀, r₀, a, h₀, hv, hrun⟩ := ih (by omega) hgoes
    refine ⟨a₀, r₀, g a b, by simpa using h₀, by rw [hm, hv, hu], fun n hn => ?_⟩
    obtain ⟨n', hn', hchain⟩ := hrun n hn
    obtain ⟨n', rfl⟩ : ∃ i, n' = i + 1 := ⟨n' - 1, by simp at hn'; omega⟩
    refine ⟨n', by simp at hn'; omega, ?_⟩
    rw [hchain, chain, hg]
    simp [hb]

/-- A first operand and a chain behind it. -/
def chainFrom (separator : Char → Option (α → β → α)) (p : Parser α) (q : Parser β) : Parser α :=
  fun s => (p s).map fun (a, rest) => chain separator q rest.length a rest

theorem chainFrom_sound (hsep : Implements separator m m' operators) (hq : Sound q m' operand)
    {s rest : List Char} {b : α} (h : chainFrom separator p q s = some (b, rest))
    (hp : ∀ a r, p s = some (a, r) → ∃ w, first w (m a) ∧ s = w ++ r) :
    ∃ w, Chain operators first operand w (m b) ∧ s = w ++ rest := by
  obtain ⟨⟨a, r⟩, ha, hchain⟩ := Option.map_eq_some_iff.1 h
  obtain ⟨w, hw, rfl⟩ := hp a r ha
  obtain ⟨u, rfl, hu⟩ := chain_sound hsep hq (.first hw) hchain
  exact ⟨w ++ u, hu, by simp⟩

theorem chainFrom_complete {k : Nat} {cs ds : List Char} (hsep : Implements separator m m' operators)
    (hp : Complete k ds p m first) (hq : Complete k ds q m' operand)
    (hops : ∀ {c f}, (c, f) ∈ operators → c ∈ ds) (hsub : cs ⊆ ds)
    (hcs : ∀ c ∈ cs, separator c = none) :
    Complete k cs (chainFrom separator p q) m (Chain operators first operand) := by
  intro w v hw hk rest hrest
  obtain ⟨a₀, r₀, a, h₀, hv, hrun⟩ := chain_reaches hsep hp hq hops hw hk (hrest.mono hsub)
  obtain ⟨n, -, hchain⟩ := hrun r₀.length le_rfl
  refine ⟨a, ?_, hv⟩
  simp only [chainFrom, h₀, Option.map_some, hchain, chain_stops hcs hrest]

end RateControl.Expr
