import SqlScript.TokenSource

/-!
# Grammar rules

A rule takes tokens from a source and ends with a value or with a syntax error; either way the
source stands where the rule stopped. Part of being a rule is that the source never grows, so
rules are composed with `do` and a repetition ends by the size of the source.

Everything is built from two ways of touching the source. `Rule.look` shows the next token.
`Rule.token f` lets `f` judge the next token, takes it if `f` accepts, and otherwise fails with
what `f` would have accepted, leaving the token in place. A repetition (`Rule.collect`) is only
allowed for steps that take a token whenever they ask for another round (`Rule.Advances`).
-/

namespace SqlScript

open TokenSource

/-- A rule of a grammar over the source `σ`, with values in `α`. -/
structure Rule (σ : Type) [TokenSource σ] (α : Type) where
  run : σ → Except SyntaxError α × σ
  size_run_le : ∀ s, size (run s).2 ≤ size s

namespace Rule

variable {σ : Type} [TokenSource σ] {α β : Type}

instance : Monad (Rule σ) where
  pure a := ⟨fun s => (.ok a, s), fun _ => Nat.le_refl _⟩
  bind x f :=
    { run := fun s =>
        match x.run s with
        | (.ok a, s') => (f a).run s'
        | (.error e, s') => (.error e, s')
      size_run_le := fun s => by
        have h := x.size_run_le s
        split
        · next a s' he => rw [he] at h; exact Nat.le_trans ((f a).size_run_le s') h
        · next e s' he => rw [he] at h; exact h }

theorem run_pure (a : α) (s : σ) : (pure a : Rule σ α).run s = (.ok a, s) := rfl

theorem run_bind (x : Rule σ α) (f : α → Rule σ β) (s : σ) :
    (x >>= f).run s =
      match x.run s with
      | (.ok a, s') => (f a).run s'
      | (.error e, s') => (.error e, s') := rfl

theorem run_map (g : α → β) (x : Rule σ α) (s : σ) :
    (g <$> x).run s =
      match x.run s with
      | (.ok a, s') => (.ok (g a), s')
      | (.error e, s') => (.error e, s') := rfl

/-- The next token, left in place. -/
def look : Rule σ Token where
  run s :=
    let r := peek s
    (.ok r.1, r.2)
  size_run_le := size_peek_le

/-- Fail because `t` stands where `expected` would have been accepted. -/
def fail (expected : Expectation) (t : Token) : Rule σ α where
  run s := (.error ⟨expected, t⟩, s)
  size_run_le _ := Nat.le_refl _

/-- Take the next token if `f` accepts it, and fail in front of it if not. -/
def token (f : Token → Except Expectation α) : Rule σ α where
  run s :=
    let r := peek s
    match f r.1 with
    | .ok a => (.ok a, (take r.2).2)
    | .error expected => (.error ⟨expected, r.1⟩, r.2)
  size_run_le s := by
    dsimp only
    split
    · exact Nat.le_trans (size_take_le _) (size_peek_le s)
    · exact size_peek_le s

/-- Take the next token if it is of kind `k`, and give its text. -/
def expect (k : Kind) : Rule σ String :=
  token fun t => if t.kind = k then .ok t.text else .error (.kind k)

/-- Take the next token if it is of kind `k`, and tell whether it was. -/
def accept (k : Kind) : Rule σ Bool where
  run s :=
    let r := peek s
    if r.1.kind = k then (.ok true, (take r.2).2) else (.ok false, r.2)
  size_run_le s := by
    dsimp only
    split
    · exact Nat.le_trans (size_take_le _) (size_peek_le s)
    · exact size_peek_le s

/-! ## Progress -/

/-- The rule takes a token, other than the end of input, whenever its value is in `p`. -/
def AdvancesOn (p : α → Prop) (x : Rule σ α) : Prop :=
  ∀ s a s', x.run s = (.ok a, s') → p a → size s' < size s

/-- A step of a repetition takes a token whenever it asks for another round. -/
abbrev Advances (x : Rule σ (Option α)) : Prop := x.AdvancesOn (fun a => a.isSome)

/-- Taking a token after looking at it lowers the size, unless it is the end of input. -/
theorem size_take_peek_lt {s : σ} (h : (peek s).1.isEnd = false) :
    size (take (peek s).2).2 < size s := by
  rw [take_peek]
  rw [fst_peek] at h
  exact size_take_lt s h

theorem token_advances {f : Token → Except Expectation α}
    (h : ∀ t a, f t = .ok a → t.isEnd = false) : (token (σ := σ) f).AdvancesOn (fun _ => True) := by
  intro s a s' hr _
  unfold token at hr
  dsimp only at hr
  split at hr
  · next b hb =>
    obtain ⟨-, rfl⟩ := Prod.mk.inj hr
    exact size_take_peek_lt (h _ _ hb)
  · simp at hr

theorem expect_advances {k : Kind} (h : k ≠ .endOfInput) :
    (expect (σ := σ) k).AdvancesOn (fun _ => True) := by
  refine token_advances fun t a ht => ?_
  split at ht
  · next hk => simp [Token.isEnd, hk, h]
  · simp at ht

theorem accept_advances {k : Kind} (h : k ≠ .endOfInput) :
    (accept (σ := σ) k).AdvancesOn (fun b => b = true) := by
  intro s b s' hr hb
  unfold accept at hr
  dsimp only at hr
  split at hr
  · next hk =>
    obtain ⟨-, rfl⟩ := Prod.mk.inj hr
    exact size_take_peek_lt (by simp [Token.isEnd, hk, h])
  · obtain ⟨hr, -⟩ := Prod.mk.inj hr
    obtain rfl := Except.ok.inj hr
    exact absurd hb (by decide)

/-- A sequence advances if its first rule does whenever the sequence gets anywhere. -/
theorem AdvancesOn.bind {p : β → Prop} {q : α → Prop} {x : Rule σ α} {f : α → Rule σ β}
    (hx : x.AdvancesOn q) (hf : ∀ a, ¬ q a → (f a).AdvancesOn p) : (x >>= f).AdvancesOn p := by
  intro s b s' hr hb
  rw [run_bind] at hr
  split at hr
  · next a s₁ ha =>
    by_cases hq : q a
    · have h := (f a).size_run_le s₁
      rw [hr] at h
      exact Nat.lt_of_le_of_lt h (hx s a s₁ ha hq)
    · have h := x.size_run_le s
      rw [ha] at h
      exact Nat.lt_of_lt_of_le (hf a hq s₁ b s' hr hb) h
  · simp at hr

/-- A sequence advances if whatever follows its first rule does. -/
theorem AdvancesOn.bind_right {p : β → Prop} {x : Rule σ α} {f : α → Rule σ β}
    (hf : ∀ a, (f a).AdvancesOn p) : (x >>= f).AdvancesOn p :=
  AdvancesOn.bind (q := fun _ => False) (fun _ _ _ _ h => h.elim) (fun a _ => hf a)

theorem AdvancesOn.map {p : β → Prop} {q : α → Prop} {x : Rule σ α} (g : α → β)
    (hx : x.AdvancesOn q) (h : ∀ a, p (g a) → q a) : (g <$> x).AdvancesOn p := by
  intro s b s' hr hb
  rw [run_map] at hr
  split at hr
  · next a s₁ ha =>
    simp only [Prod.mk.injEq, Except.ok.injEq] at hr
    obtain ⟨rfl, rfl⟩ := hr
    exact hx s a s₁ ha (h a hb)
  · simp at hr

theorem AdvancesOn.pure {p : α → Prop} {a : α} (h : ¬ p a) :
    (Pure.pure a : Rule σ α).AdvancesOn p := by
  intro s b s' hr hb
  obtain ⟨hr, -⟩ := Prod.mk.inj hr
  obtain rfl := Except.ok.inj hr
  exact absurd hb h

/-! ## Repetition -/

/-- The values of `step` until it gives none, added to `acc`. -/
def collectOnto (step : Rule σ (Option α)) (h : step.Advances) (acc : Array α) (s : σ) :
    Except SyntaxError (List α) × σ :=
  match _hs : step.run s with
  | (.error e, s') => (.error e, s')
  | (.ok none, s') => (.ok acc.toList, s')
  | (.ok (some a), s') => collectOnto step h (acc.push a) s'
termination_by size s
decreasing_by exact h s _ _ _hs rfl

theorem size_collectOnto_le (step : Rule σ (Option α)) (h : step.Advances) (acc : Array α)
    (s : σ) : size (collectOnto step h acc s).2 ≤ size s := by
  fun_induction collectOnto step h acc s with
  | case1 acc s e s' hs => have := step.size_run_le s; rwa [hs] at this
  | case2 acc s s' hs => have := step.size_run_le s; rwa [hs] at this
  | case3 acc s a s' hs ih =>
    have := step.size_run_le s
    rw [hs] at this
    exact Nat.le_trans ih this

/-- The values of `step`, again and again until it gives none. -/
def collect (step : Rule σ (Option α)) (h : step.Advances) : Rule σ (List α) where
  run := collectOnto step h #[]
  size_run_le := size_collectOnto_le step h #[]

end Rule

end SqlScript
