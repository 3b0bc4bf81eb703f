import SqlScript.Proofs.Denotation
import SqlScript.Proofs.Upcoming

/-!
# The grammar as a relation

`Derives p s` says that the tokens `p` are a sentence of the grammar and write the statement `s`.
It is put together from phrases, each a relation between the tokens of a phrase and what they
write, with the repetitions of the grammar as inductive lists, and what a literal writes is what it
denotes (`Phrase.WritesValue`). Nothing in it says how a sentence is read, in which order or with
which look ahead.

The rules read exactly this grammar (`Grammar.reads_statement`): on a tape a rule succeeds if
and only if a phrase stands at the front, and it takes that phrase. So no list of tokens starts
with two sentences (`Derives.unique`), and the same holds for every reachable scanner
(`statement_run_iff_derives`).
-/

namespace SqlScript

open TokenSource

variable {α β : Type}

/-! ## Phrases -/

/-- A kind of phrase: which tokens write which value. -/
abbrev Phrase (α : Type) := List Token → α → Prop

namespace Phrase

/-- A phrase of one token. -/
inductive Single (M : Token → α → Prop) : Phrase α
  | intro {t : Token} {a : α} (h : M t a) : Single M [t] a

/-- Any number of phrases, one after another. -/
inductive Repeated (D : Phrase α) : Phrase (List α)
  | nil : Repeated D [] []
  | cons {p q : List Token} {a : α} {as : List α} (h : D p a) (hs : Repeated D q as) :
      Repeated D (p ++ q) (a :: as)

/-- A phrase behind a comma. -/
inductive AfterComma (D : Phrase α) : Phrase α
  | intro {c : Token} {p : List Token} {a : α} (hc : c.kind = .mark .comma) (h : D p a) :
      AfterComma D (c :: p) a

/-- One phrase, and behind it any number of phrases of another kind. -/
inductive OneThen (D E : Phrase α) : Phrase (List α)
  | intro {p q : List Token} {a : α} {as : List α} (h : D p a) (hs : Repeated E q as) :
      OneThen D E (p ++ q) (a :: as)

/-- One or more phrases, the later ones each behind a comma. -/
def CommaList (D : Phrase α) : Phrase (List α) := OneThen D (AfterComma D)

/-- A name: an identifier, as it is spelled. -/
def Name : Phrase String := Single fun t n => t.kind = .identifier ∧ t.text = n

/-- One or more names. -/
def Names : Phrase (List String) := OneThen Name Name

/-- A token that writes a literal: an integer that fits 32 bits, a real whose nearest
single-precision number is finite, or a quoted text. -/
inductive WritesValue (t : Token) : Value → Prop
  | integer {n : Int32} (hk : t.kind = .literal .int)
      (hn : DenotesInteger t.text.toList n.toInt) : WritesValue t (.integer n)
  | real {x : Binary32} {negative : Bool} {q : ℚ} (hk : t.kind = .literal .real)
      (hq : DenotesDecimal t.text.toList negative q) (hx : x.IsNearest negative q) :
      WritesValue t (.real x)
  | text (hk : t.kind = .literal .text) : WritesValue t (.text t.text)

/-- A token that writes an operand: the name of a column, or a literal. -/
inductive WritesOperand (t : Token) : Operand → Prop
  | column (hk : t.kind = .identifier) : WritesOperand t (.column t.text)
  | value {v : Value} (h : WritesValue t v) : WritesOperand t (.value v)

/-- A literal. -/
def OfValue : Phrase Value := Single WritesValue

/-- The name and the type of a column. -/
inductive OfColumn : Phrase Column
  | intro {n d : Token} {type : DataType} (hn : n.kind = .identifier)
      (hd : d.kind = .keyword (.type type)) : OfColumn [n, d] ⟨n.text, type⟩

/-- A comparison of two operands. -/
inductive OfCondition : Phrase Condition
  | intro {l o r : Token} {left right : Operand} {c : Comparison} (hl : WritesOperand l left)
      (ho : o.kind = .comparison c) (hr : WritesOperand r right) :
      OfCondition [l, o, r] ⟨left, c, right⟩

/-- A condition behind `WHERE`, or nothing. -/
inductive WhereClause : Phrase (Option Condition)
  | absent : WhereClause [] none
  | present {w : Token} {p : List Token} {c : Condition} (hw : w.kind = .keyword .where_)
      (h : OfCondition p c) : WhereClause (w :: p) (some c)

end Phrase

open Phrase in
/-- The tokens are a sentence of the grammar, and write the statement. -/
inductive Derives : Phrase Statement
  | createTable {k₁ k₂ n l r e : Token} {p : List Token} {columns : List Column}
      (h₁ : k₁.kind = .keyword .create) (h₂ : k₂.kind = .keyword .table)
      (hn : n.kind = .identifier) (hl : l.kind = .mark .leftParen)
      (hp : CommaList OfColumn p columns) (hr : r.kind = .mark .rightParen)
      (he : e.kind = .mark .semicolon) :
      Derives (k₁ :: k₂ :: n :: l :: (p ++ [r, e])) (.createTable n.text columns)
  | select {k₁ k₂ n e : Token} {p q : List Token} {columns : List String} {c : Option Condition}
      (h₁ : k₁.kind = .keyword .select) (hp : Names p columns) (h₂ : k₂.kind = .keyword .from_)
      (hn : n.kind = .identifier) (hq : WhereClause q c) (he : e.kind = .mark .semicolon) :
      Derives (k₁ :: (p ++ k₂ :: n :: (q ++ [e]))) (.select columns n.text c)
  | insert {k₁ k₂ n l r k₃ l' r' e : Token} {p q : List Token} {columns : List String}
      {values : List Value} (h₁ : k₁.kind = .keyword .insert) (h₂ : k₂.kind = .keyword .into)
      (hn : n.kind = .identifier) (hl : l.kind = .mark .leftParen) (hp : CommaList Name p columns)
      (hr : r.kind = .mark .rightParen) (h₃ : k₃.kind = .keyword .values)
      (hl' : l'.kind = .mark .leftParen) (hq : CommaList OfValue q values)
      (hr' : r'.kind = .mark .rightParen) (he : e.kind = .mark .semicolon) :
      Derives (k₁ :: k₂ :: n :: l :: (p ++ r :: k₃ :: l' :: (q ++ [r', e])))
        (.insert n.text columns values)
  | delete {k₁ k₂ n e : Token} {q : List Token} {c : Option Condition}
      (h₁ : k₁.kind = .keyword .delete) (h₂ : k₂.kind = .keyword .from_)
      (hn : n.kind = .identifier) (hq : WhereClause q c) (he : e.kind = .mark .semicolon) :
      Derives (k₁ :: k₂ :: n :: (q ++ [e])) (.delete n.text c)
  | dropTable {k₁ k₂ n e : Token} (h₁ : k₁.kind = .keyword .drop) (h₂ : k₂.kind = .keyword .table)
      (hn : n.kind = .identifier) (he : e.kind = .mark .semicolon) :
      Derives [k₁, k₂, n, e] (.dropTable n.text)

/-- The word that a statement starts with. -/
def Statement.keyword : Statement → Keyword
  | createTable _ _ => .create
  | select _ _ _ => .select
  | insert _ _ _ => .insert
  | delete _ _ => .delete
  | dropTable _ => .drop

theorem Derives.exists_cons {p : List Token} {s : Statement} (h : Derives p s) :
    ∃ t q, p = t :: q ∧ t.kind = .keyword s.keyword := by
  cases h with
  | createTable h₁ => exact ⟨_, _, rfl, h₁⟩
  | select h₁ => exact ⟨_, _, rfl, h₁⟩
  | insert h₁ => exact ⟨_, _, rfl, h₁⟩
  | delete h₁ => exact ⟨_, _, rfl, h₁⟩
  | dropTable h₁ => exact ⟨_, _, rfl, h₁⟩

/-! ## What single tokens write -/

theorem Value.ofToken_of_int {t : Token} (hk : t.kind = .literal .int) :
    Value.ofToken t = ((Numeral.integer? t.text.toList).map fun n => .ok (.integer n)).getD
      (.error .integerInRange) := by
  unfold Value.ofToken
  generalize Numeral.integer? t.text.toList = o
  rw [hk]
  cases o <;> rfl

theorem Value.ofToken_of_real {t : Token} (hk : t.kind = .literal .real) :
    Value.ofToken t = ((Numeral.real? t.text.toList).map fun x => .ok (.real x)).getD
      (.error .realInRange) := by
  unfold Value.ofToken
  -- the readings are made variables, so that no check of the match computes them
  generalize Numeral.integer? t.text.toList = o'
  generalize Numeral.real? t.text.toList = o
  rw [hk]
  cases o <;> rfl

theorem Value.ofToken_of_text {t : Token} (hk : t.kind = .literal .text) :
    Value.ofToken t = .ok (.text t.text) := by
  simp only [Value.ofToken, hk]

theorem Value.ofToken_eq_ok_iff {t : Token} {v : Value} :
    Value.ofToken t = .ok v ↔ Phrase.WritesValue t v := by
  constructor
  · intro h
    obtain ⟨d, hk⟩ := Value.kind_of_ofToken h
    cases d with
    | int =>
      rw [ofToken_of_int hk] at h
      cases hn : Numeral.integer? t.text.toList with
      | none => rw [hn] at h; cases h
      | some n =>
        rw [hn] at h
        obtain rfl := Except.ok.inj h
        exact .integer hk (Numeral.integer?_eq_some_iff.1 hn)
    | real =>
      rw [ofToken_of_real hk] at h
      cases hread : Numeral.real? t.text.toList with
      | none => rw [hread] at h; cases h
      | some x =>
        rw [hread] at h
        obtain rfl := Except.ok.inj h
        obtain ⟨negative, q, hq, hx⟩ := Numeral.real?_eq_some_iff.1 hread
        exact .real hk hq hx
    | text =>
      rw [ofToken_of_text hk] at h
      obtain rfl := Except.ok.inj h
      exact .text hk
  · intro h
    cases h with
    | integer hk hn =>
      rw [ofToken_of_int hk, Numeral.integer?_eq_some_iff.2 hn]
      rfl
    | real hk hq hx =>
      rw [ofToken_of_real hk, hq.real?_eq_some_iff.2 hx]
      rfl
    | text hk => exact ofToken_of_text hk

theorem Phrase.WritesValue.kind_eq {t : Token} {v : Value} (h : WritesValue t v) :
    ∃ d, t.kind = .literal d := by
  cases h with
  | integer hk => exact ⟨_, hk⟩
  | real hk => exact ⟨_, hk⟩
  | text hk => exact ⟨_, hk⟩

theorem Operand.ofToken_eq_ok_iff {t : Token} {o : Operand} :
    Operand.ofToken t = .ok o ↔ Phrase.WritesOperand t o := by
  constructor
  · intro h
    rcases Operand.kind_of_ofToken h with hk | ⟨d, hk⟩
    · simp only [Operand.ofToken, hk] at h
      obtain rfl := Except.ok.inj h
      exact .column hk
    · rw [Operand.ofToken_of_literal hk] at h
      cases hv : Value.ofToken t with
      | error e => rw [hv] at h; cases h
      | ok v =>
        rw [hv] at h
        obtain rfl := Except.ok.inj h
        exact .value (Value.ofToken_eq_ok_iff.1 hv)
  · intro h
    cases h with
    | column hk => simp only [Operand.ofToken, hk]
    | value hv =>
      obtain ⟨d, hk⟩ := hv.kind_eq
      rw [Operand.ofToken_of_literal hk, Value.ofToken_eq_ok_iff.2 hv]
      rfl

/-! ## Rules that read a phrase -/

namespace Rule

theorem run_bind_eq_ok_iff {σ : Type} [TokenSource σ] {x : Rule σ α} {f : α → Rule σ β} {s s' : σ}
    {b : β} : (x >>= f).run s = (.ok b, s') ↔
      ∃ a s₁, x.run s = (.ok a, s₁) ∧ (f a).run s₁ = (.ok b, s') := by
  rw [run_bind]
  constructor
  · intro h
    split at h
    · next a s₁ hx => exact ⟨a, s₁, hx, h⟩
    · next e s₁ hx => simp at h
  · rintro ⟨a, s₁, hx, hf⟩
    rw [hx]
    exact hf

theorem run_pure_eq_ok_iff {σ : Type} [TokenSource σ] {a b : α} {s s' : σ} :
    (pure a : Rule σ α).run s = (.ok b, s') ↔ b = a ∧ s' = s := by
  rw [run_pure, Prod.mk.injEq, Except.ok.injEq]
  exact and_congr eq_comm eq_comm

theorem run_map_eq_ok_iff {σ : Type} [TokenSource σ] {x : Rule σ α} {g : α → β} {s s' : σ} {b : β} :
    (g <$> x).run s = (.ok b, s') ↔ ∃ a, x.run s = (.ok a, s') ∧ b = g a := by
  rw [run_map]
  constructor
  · intro h
    split at h
    · next a s₁ hx =>
      simp only [Prod.mk.injEq, Except.ok.injEq] at h
      obtain ⟨rfl, rfl⟩ := h
      exact ⟨a, hx, rfl⟩
    · simp at h
  · rintro ⟨a, hx, rfl⟩
    rw [hx]

/-- On a tape the rule succeeds if and only if there is a phrase `D` in front, with `F` on what
stands behind it, and it takes that phrase. -/
def Recognizes (x : Rule Tape α) (D : Phrase α) (F : α → List Token → Prop) : Prop :=
  ∀ ts l a t', x.run ⟨ts, l⟩ = (.ok a, t') ↔
    ∃ p r, ts = p ++ r ∧ D p a ∧ F a r ∧ t' = ⟨r, l⟩

/-- Nothing is asked of what stands behind the phrase. -/
abbrev Reads (x : Rule Tape α) (D : Phrase α) : Prop := x.Recognizes D fun _ _ => True

/-- Whether there is a next token and it is of the kind. -/
def ahead (k : Kind) (r : List Token) : Bool := r.head?.any fun t => t.kind = k

theorem ahead_nil {k : Kind} : ahead k [] = false := rfl

theorem ahead_cons {k : Kind} {t : Token} {r : List Token} :
    ahead k (t :: r) = decide (t.kind = k) :=
  rfl

variable {D : Phrase α} {F : α → List Token → Prop}

theorem Recognizes.run_bind_eq_ok_iff {x : Rule Tape α} (h : x.Recognizes D F) {f : α → Rule Tape β}
    {ts : List Token} {l : Location} {b : β} {t' : Tape} :
    (x >>= f).run ⟨ts, l⟩ = (.ok b, t') ↔
      ∃ a p r, ts = p ++ r ∧ D p a ∧ F a r ∧ (f a).run ⟨r, l⟩ = (.ok b, t') := by
  rw [Rule.run_bind_eq_ok_iff]
  constructor
  · rintro ⟨a, s₁, hx, hf⟩
    obtain ⟨p, r, hts, hp, hr, rfl⟩ := (h _ _ _ _).1 hx
    exact ⟨a, p, r, hts, hp, hr, hf⟩
  · rintro ⟨a, p, r, hts, hp, hr, hf⟩
    exact ⟨a, _, (h _ _ _ _).2 ⟨p, r, hts, hp, hr, rfl⟩, hf⟩

theorem reads_token {f : Token → Except Expectation α} {M : Token → α → Prop}
    (hf : ∀ t a, f t = .ok a ↔ M t a) (he : ∀ l a, ¬ M (.endOfInput l) a) :
    (token f).Reads (.Single M) := by
  intro ts l a t'
  constructor
  · intro h
    cases ts with
    | nil =>
      have hn : ∀ a, f (.endOfInput l) ≠ .ok a := fun a ha => he l a ((hf _ _).1 ha)
      simp only [token, TokenSource.peek, Tape.peek] at h
      split at h
      · next b hb => exact absurd hb (hn b)
      · simp at h
    | cons t r =>
      simp only [token, TokenSource.peek, TokenSource.take, Tape.peek, Tape.take] at h
      split at h
      · next b hb =>
        simp only [Prod.mk.injEq, Except.ok.injEq] at h
        obtain ⟨rfl, rfl⟩ := h
        exact ⟨[t], r, rfl, .intro ((hf _ _).1 hb), trivial, rfl⟩
      · simp at h
  · rintro ⟨_, r, rfl, ⟨hm⟩, -, rfl⟩
    simp [token, TokenSource.peek, TokenSource.take, Tape.peek, Tape.take, (hf _ _).2 hm]

theorem reads_expect {k : Kind} (hk : k ≠ .endOfInput) :
    (expect k).Reads (.Single fun t w => t.kind = k ∧ t.text = w) :=
  reads_token (fun t w => by by_cases h : t.kind = k <;> simp [h])
    fun l w h => hk h.1.symm

/-- A word of the language and what comes behind it. -/
theorem run_expect_bind_eq_ok_iff {k : Kind} (hk : k ≠ .endOfInput) {f : String → Rule Tape β}
    {ts : List Token} {l : Location} {b : β} {t' : Tape} :
    (expect k >>= f).run ⟨ts, l⟩ = (.ok b, t') ↔
      ∃ t r, ts = t :: r ∧ t.kind = k ∧ (f t.text).run ⟨r, l⟩ = (.ok b, t') := by
  rw [(reads_expect hk).run_bind_eq_ok_iff]
  constructor
  · rintro ⟨_, _, r, rfl, ⟨rfl, rfl⟩, -, hf⟩
    exact ⟨_, r, rfl, rfl, hf⟩
  · rintro ⟨t, r, rfl, rfl, hf⟩
    exact ⟨_, [t], r, rfl, .intro ⟨rfl, rfl⟩, trivial, hf⟩

section
variable {f : String → Rule Tape β} {ts : List Token} {l : Location} {b : β} {t' : Tape}

theorem run_keyword_bind_eq_ok_iff {k : Keyword} :
    (expect (.keyword k) >>= f).run ⟨ts, l⟩ = (.ok b, t') ↔
      ∃ t r, ts = t :: r ∧ t.kind = .keyword k ∧ (f t.text).run ⟨r, l⟩ = (.ok b, t') :=
  run_expect_bind_eq_ok_iff (by simp)

theorem run_mark_bind_eq_ok_iff {m : Mark} :
    (expect (.mark m) >>= f).run ⟨ts, l⟩ = (.ok b, t') ↔
      ∃ t r, ts = t :: r ∧ t.kind = .mark m ∧ (f t.text).run ⟨r, l⟩ = (.ok b, t') :=
  run_expect_bind_eq_ok_iff (by simp)

theorem run_identifier_bind_eq_ok_iff :
    (expect .identifier >>= f).run ⟨ts, l⟩ = (.ok b, t') ↔
      ∃ t r, ts = t :: r ∧ t.kind = .identifier ∧ (f t.text).run ⟨r, l⟩ = (.ok b, t') :=
  run_expect_bind_eq_ok_iff (by simp)

end

theorem run_accept {k : Kind} (hk : k ≠ .endOfInput) (ts : List Token) (l : Location) :
    (accept k).run (⟨ts, l⟩ : Tape) =
      match ts with
      | [] => (.ok false, ⟨[], l⟩)
      | t :: r => if t.kind = k then (.ok true, ⟨r, l⟩) else (.ok false, ⟨t :: r, l⟩) := by
  cases ts with
  | nil => simp [accept, TokenSource.peek, Tape.peek, Token.endOfInput, hk.symm]
  | cons t r => rfl

/-- The two ways to go on behind an optional word: it is there and is taken, or it is not. -/
theorem run_accept_bind_eq_ok_iff {k : Kind} (hk : k ≠ .endOfInput) {f : Bool → Rule Tape β}
    {ts : List Token} {l : Location} {b : β} {t' : Tape} :
    (accept k >>= f).run ⟨ts, l⟩ = (.ok b, t') ↔
      (∃ t r, ts = t :: r ∧ t.kind = k ∧ (f true).run ⟨r, l⟩ = (.ok b, t')) ∨
        (ahead k ts = false ∧ (f false).run ⟨ts, l⟩ = (.ok b, t')) := by
  rw [run_bind, run_accept hk]
  cases ts with
  | nil => simp [ahead_nil]
  | cons t r =>
    simp only [ahead_cons]
    by_cases h : t.kind = k
    · simp only [h, if_true, decide_true, Bool.true_eq_false, false_and, or_false]
      constructor
      · exact fun hf => ⟨t, r, rfl, h, hf⟩
      · rintro ⟨_, _, he, -, hf⟩
        obtain ⟨rfl, rfl⟩ := List.cons.inj he
        exact hf
    · simp only [h, if_false, decide_false, true_and]
      constructor
      · exact .inr
      · rintro (⟨_, _, he, hk', -⟩ | hf)
        · exact absurd ((List.cons.inj he).1 ▸ hk') h
        · exact hf

theorem Recognizes.collect {step : Rule Tape (Option α)} {h : step.Advances}
    {Stop : List Token → Prop}
    (hs : ∀ ts l a t', step.run ⟨ts, l⟩ = (.ok (some a), t') ↔
      ∃ p r, ts = p ++ r ∧ D p a ∧ t' = ⟨r, l⟩)
    (hn : ∀ ts l t', step.run ⟨ts, l⟩ = (.ok none, t') ↔ Stop ts ∧ t' = ⟨ts, l⟩) :
    (Rule.collect step h).Recognizes (.Repeated D) fun _ r => Stop r := by
  intro ts l as t'
  constructor
  · intro hc
    -- by induction on the tape, which a round that gives a value shortens
    induction hz : ts.length using Nat.strongRecOn generalizing ts as with
    | ind n ih =>
      rw [run_collect] at hc
      split at hc
      · simp at hc
      · next s' hst =>
        simp only [Prod.mk.injEq, Except.ok.injEq] at hc
        obtain ⟨rfl, rfl⟩ := hc
        obtain ⟨hstop, rfl⟩ := (hn _ _ _).1 hst
        exact ⟨[], ts, rfl, .nil, hstop, rfl⟩
      · next a s' hst =>
        obtain ⟨as', hc', rfl⟩ := run_map_eq_ok_iff.1 hc
        have hlt := h _ _ _ hst rfl
        obtain ⟨p, r, rfl, hp, rfl⟩ := (hs _ _ _ _).1 hst
        change r.length < (p ++ r).length at hlt
        obtain ⟨q, r', rfl, hq, hr, ht⟩ := ih _ (hz ▸ hlt) _ _ hc' rfl
        exact ⟨p ++ q, r', (List.append_assoc ..).symm, .cons hp hq, hr, ht⟩
  · rintro ⟨p, r, rfl, hp, hr, rfl⟩
    induction hp with
    | nil => rw [List.nil_append, run_collect, (hn _ _ _).2 ⟨hr, rfl⟩]
    | @cons p q a as hp hq ih =>
      rw [run_collect, (hs _ _ _ _).2 ⟨p, q ++ r, List.append_assoc .., hp, rfl⟩]
      change (List.cons a <$> Rule.collect step h).run ⟨q ++ r, l⟩ = _
      rw [run_map, ih]

/-- A list of one phrase and those behind it. -/
theorem Recognizes.oneThen {x : Rule Tape α} {more : Rule Tape (List α)} {E : Phrase α}
    {Stop : List Token → Prop} (hx : x.Reads D)
    (hmore : more.Recognizes (.Repeated E) fun _ r => Stop r) :
    (x >>= fun a => more >>= fun as => pure (a :: as)).Recognizes (.OneThen D E)
      fun _ r => Stop r := by
  intro ts l as t'
  simp only [hx.run_bind_eq_ok_iff, hmore.run_bind_eq_ok_iff, run_pure_eq_ok_iff]
  constructor
  · rintro ⟨a, p, _, rfl, hp, -, as, q, r, rfl, hq, hr, rfl, rfl⟩
    exact ⟨p ++ q, r, (List.append_assoc ..).symm, .intro hp hq, hr, rfl⟩
  · rintro ⟨_, r, rfl, ⟨hp, hq⟩, hr, rfl⟩
    exact ⟨_, _, _, List.append_assoc .., hp, trivial, _, _, r, rfl, hq, hr, rfl, rfl⟩

end Rule

namespace Grammar

open Rule Phrase

/-! ## The phrases of a statement -/

theorem reads_name : (name (σ := Tape)).Reads Name := reads_expect (by decide)

theorem reads_value : (value (σ := Tape)).Reads OfValue :=
  reads_token (fun _ _ => Value.ofToken_eq_ok_iff) fun l v h => by
    obtain ⟨d, hk⟩ := h.kind_eq
    cases hk

theorem reads_operand : (operand (σ := Tape)).Reads (Single WritesOperand) :=
  reads_token (fun _ _ => Operand.ofToken_eq_ok_iff) fun l o h => by
    cases h with
    | column hk => cases hk
    | value hv =>
      obtain ⟨d, hk⟩ := hv.kind_eq
      cases hk

theorem reads_comparison :
    (comparison (σ := Tape)).Reads (Single fun t c => t.kind = .comparison c) :=
  reads_token (fun _ _ => Comparison.ofToken_eq_ok_iff) fun l c h => by cases h

theorem reads_dataType :
    (token (σ := Tape) DataType.ofToken).Reads (Single fun t d => t.kind = .keyword (.type d)) :=
  reads_token (fun _ _ => DataType.ofToken_eq_ok_iff) fun l d h => by cases h

theorem reads_column : (column (σ := Tape)).Reads OfColumn := by
  intro ts l c t'
  simp only [column, name, run_identifier_bind_eq_ok_iff, reads_dataType.run_bind_eq_ok_iff,
    run_pure_eq_ok_iff]
  constructor
  · rintro ⟨n, _, rfl, hn, d, _, r, rfl, ⟨hd⟩, -, rfl, rfl⟩
    exact ⟨[n, _], r, rfl, .intro hn hd, trivial, rfl⟩
  · rintro ⟨_, r, rfl, ⟨hn, hd⟩, -, rfl⟩
    exact ⟨_, _, rfl, hn, _, _, r, rfl, .intro hd, trivial, rfl, rfl⟩

theorem reads_condition : (condition (σ := Tape)).Reads OfCondition := by
  intro ts l c t'
  simp only [condition, reads_operand.run_bind_eq_ok_iff, reads_comparison.run_bind_eq_ok_iff,
    run_pure_eq_ok_iff]
  constructor
  · rintro ⟨left, _, _, rfl, ⟨hl⟩, -, o, _, _, rfl, ⟨ho⟩, -, right, _, r, rfl, ⟨hr⟩, -, rfl, rfl⟩
    exact ⟨[_, _, _], r, rfl, .intro hl ho hr, trivial, rfl⟩
  · rintro ⟨_, r, rfl, ⟨hl, ho, hr⟩, -, rfl⟩
    exact ⟨_, [_], _, rfl, .intro hl, trivial, _, [_], _, rfl, .intro ho, trivial, _, [_], r, rfl,
      .intro hr, trivial, rfl, rfl⟩

/-- One more item is read exactly where a comma stands in front of it. -/
theorem run_nextItem_eq_some_iff {x : Rule Tape α} {D : Phrase α} (h : x.Reads D) {ts : List Token}
    {l : Location} {a : α} {t' : Tape} : (nextItem x).run ⟨ts, l⟩ = (.ok (some a), t') ↔
      ∃ p r, ts = p ++ r ∧ AfterComma D p a ∧ t' = ⟨r, l⟩ := by
  simp only [nextItem, run_accept_bind_eq_ok_iff (k := .mark .comma) (by decide), if_true,
    Bool.false_eq_true, if_false, run_map_eq_ok_iff, run_pure_eq_ok_iff, Option.some.injEq]
  constructor
  · rintro (⟨c, _, rfl, hc, a, hx, rfl⟩ | ⟨-, ha, -⟩)
    · obtain ⟨p, r, rfl, hp, -, rfl⟩ := (h _ _ _ _).1 hx
      exact ⟨c :: p, r, rfl, .intro hc hp, rfl⟩
    · cases ha
  · rintro ⟨_, r, rfl, ⟨hc, hp⟩, rfl⟩
    exact .inl ⟨_, _, rfl, hc, a, (h _ _ _ _).2 ⟨_, r, rfl, hp, trivial, rfl⟩, rfl⟩

/-- The later items of a list stop where no comma stands. -/
theorem recognizes_moreItems {x : Rule Tape α} {D : Phrase α} (h : x.Reads D) :
    (collect (nextItem x) (nextItem_advances x)).Recognizes (Repeated (AfterComma D))
      fun _ r => ahead (.mark .comma) r = false := by
  apply Recognizes.collect
  · exact fun ts l a t' => run_nextItem_eq_some_iff h
  · intro ts l t'
    simp only [nextItem, run_accept_bind_eq_ok_iff (k := .mark .comma) (by decide), if_true,
      Bool.false_eq_true, if_false, run_map_eq_ok_iff, run_pure_eq_ok_iff]
    simp

/-- A list stops where no comma stands. -/
theorem recognizes_commaList {x : Rule Tape α} {D : Phrase α} (h : x.Reads D) :
    (commaList x).Recognizes (CommaList D) fun _ r => ahead (.mark .comma) r = false :=
  h.oneThen (recognizes_moreItems h)

/-- One more column is asked for unless `FROM` is next. -/
theorem run_nextSelected (ts : List Token) (l : Location) : (nextSelected (σ := Tape)).run ⟨ts, l⟩ =
    if ahead (.keyword .from_) ts = true then (.ok none, ⟨ts, l⟩)
    else (some <$> name (σ := Tape)).run ⟨ts, l⟩ := by
  rcases ts with _ | ⟨t, ts⟩
  · simp [nextSelected, run_bind, look, TokenSource.peek, Tape.peek, Token.endOfInput, ahead_nil]
  · by_cases ht : t.kind = .keyword .from_ <;>
      simp [nextSelected, run_bind, look, TokenSource.peek, Tape.peek, ht, run_pure, ahead_cons]

/-- One more column is read exactly where a name stands. -/
theorem run_nextSelected_eq_some_iff {ts : List Token} {l : Location} {n : String} {t' : Tape} :
    (nextSelected (σ := Tape)).run ⟨ts, l⟩ = (.ok (some n), t') ↔
      ∃ p r, ts = p ++ r ∧ Name p n ∧ t' = ⟨r, l⟩ := by
  rw [run_nextSelected]
  split
  · next hf =>
    constructor
    · intro h
      simp at h
    · rintro ⟨_, r, rfl, ⟨hn, -⟩, -⟩
      simp [hn, ahead_cons] at hf
  · simp only [run_map_eq_ok_iff, Option.some.injEq]
    constructor
    · rintro ⟨_, hx, rfl⟩
      obtain ⟨p, r, rfl, hp, -, rfl⟩ := (reads_name _ _ _ _).1 hx
      exact ⟨p, r, rfl, hp, rfl⟩
    · rintro ⟨p, r, rfl, hp, rfl⟩
      exact ⟨n, (reads_name _ _ _ _).2 ⟨p, r, rfl, hp, trivial, rfl⟩, rfl⟩

/-- The later columns to select stop at `FROM`. -/
theorem recognizes_moreSelected :
    (collect (nextSelected (σ := Tape)) nextSelected_advances).Recognizes (Repeated Name)
      fun _ r => ahead (.keyword .from_) r = true := by
  apply Recognizes.collect
  · exact fun ts l n t' => run_nextSelected_eq_some_iff
  · intro ts l t'
    rw [run_nextSelected]
    split
    · next hf => simp [hf, eq_comm]
    · next hf => simp [hf, run_map_eq_ok_iff]

/-- The columns to select stop at `FROM`. -/
theorem recognizes_selected : (selected (σ := Tape)).Recognizes Names
    fun _ r => ahead (.keyword .from_) r = true :=
  reads_name.oneThen recognizes_moreSelected

/-- No condition is read only where no `WHERE` stands. -/
theorem recognizes_whereClause : (whereClause (σ := Tape)).Recognizes WhereClause
    fun c r => c = none → ahead (.keyword .where_) r = false := by
  intro ts l c t'
  simp only [whereClause, run_accept_bind_eq_ok_iff (k := .keyword .where_) (by decide), if_true,
    Bool.false_eq_true, if_false, run_map_eq_ok_iff, run_pure_eq_ok_iff]
  constructor
  · rintro (⟨w, _, rfl, hw, c, hx, rfl⟩ | ⟨hts, rfl, rfl⟩)
    · obtain ⟨p, r, rfl, hp, -, rfl⟩ := (reads_condition _ _ _ _).1 hx
      exact ⟨w :: p, r, rfl, .present hw hp, by simp, rfl⟩
    · exact ⟨[], ts, rfl, .absent, fun _ => hts, rfl⟩
  · rintro ⟨p, r, rfl, hp, hr, rfl⟩
    cases hp with
    | absent => exact .inr ⟨hr rfl, rfl, rfl⟩
    | present hw hp =>
      exact .inl ⟨_, _, rfl, hw, _, (reads_condition _ _ _ _).2 ⟨_, r, rfl, hp, trivial, rfl⟩, rfl⟩

/-! ## Statements -/

/-- The sentences of the grammar that start with the given word. -/
def StatementWith (k : Keyword) : Phrase Statement := fun p s => Derives p s ∧ s.keyword = k

theorem reads_createTable : (createTable (σ := Tape)).Reads (StatementWith .create) := by
  intro ts l st t'
  simp only [createTable, name, run_keyword_bind_eq_ok_iff, run_identifier_bind_eq_ok_iff,
    run_mark_bind_eq_ok_iff, (recognizes_commaList reads_column).run_bind_eq_ok_iff,
    run_pure_eq_ok_iff]
  constructor
  · rintro ⟨k₁, _, rfl, h₁, k₂, _, rfl, h₂, n, _, rfl, hn, b, _, rfl, hb, columns, p, _, rfl, hp, -,
      b', _, rfl, hb', e, r, rfl, he, rfl, rfl⟩
    exact ⟨_, r, by simp, ⟨.createTable h₁ h₂ hn hb hp hb' he, rfl⟩, trivial, rfl⟩
  · rintro ⟨_, r, rfl, ⟨h, hk⟩, -, rfl⟩
    cases h with
    | @createTable k₁ k₂ n b b' e p columns h₁ h₂ hn hb hp hb' he =>
      refine ⟨k₁, _, rfl, h₁, k₂, _, rfl, h₂, n, _, rfl, hn, b, _, rfl, hb, columns, p,
        b' :: e :: r, by simp, hp, ?_, b', _, rfl, hb', e, r, rfl, he, rfl, rfl⟩
      simp [ahead_cons, hb']
    | _ => cases hk

theorem reads_select : (select (σ := Tape)).Reads (StatementWith .select) := by
  intro ts l st t'
  simp only [select, name, run_keyword_bind_eq_ok_iff, recognizes_selected.run_bind_eq_ok_iff,
    run_identifier_bind_eq_ok_iff, recognizes_whereClause.run_bind_eq_ok_iff,
    run_mark_bind_eq_ok_iff, run_pure_eq_ok_iff]
  constructor
  · rintro ⟨k₁, _, rfl, h₁, columns, p, _, rfl, hp, -, k₂, _, rfl, h₂, n, _, rfl, hn, c, q, _, rfl,
      hq, -, e, r, rfl, he, rfl, rfl⟩
    exact ⟨_, r, by simp, ⟨.select h₁ hp h₂ hn hq he, rfl⟩, trivial, rfl⟩
  · rintro ⟨_, r, rfl, ⟨h, hk⟩, -, rfl⟩
    cases h with
    | @select k₁ k₂ n e p q columns c h₁ hp h₂ hn hq he =>
      refine ⟨k₁, _, rfl, h₁, columns, p, k₂ :: n :: (q ++ e :: r), by simp, hp, ?_, k₂, _, rfl, h₂,
        n, _, rfl, hn, c, q, e :: r, rfl, hq, ?_, e, r, rfl, he, rfl, rfl⟩
      · simp [ahead_cons, h₂]
      · simp [ahead_cons, he]
    | _ => cases hk

theorem reads_insert : (insert (σ := Tape)).Reads (StatementWith .insert) := by
  intro ts l st t'
  simp only [insert, name, run_keyword_bind_eq_ok_iff, run_identifier_bind_eq_ok_iff,
    run_mark_bind_eq_ok_iff,
    (recognizes_commaList (x := expect .identifier) reads_name).run_bind_eq_ok_iff,
    (recognizes_commaList reads_value).run_bind_eq_ok_iff, run_pure_eq_ok_iff]
  constructor
  · rintro ⟨k₁, _, rfl, h₁, k₂, _, rfl, h₂, n, _, rfl, hn, b, _, rfl, hb, columns, p, _, rfl, hp, -,
      b', _, rfl, hb', k₃, _, rfl, h₃, d, _, rfl, hd, values, q, _, rfl, hq, -, d', _, rfl, hd', e,
      r, rfl, he, rfl, rfl⟩
    exact ⟨_, r, by simp, ⟨.insert h₁ h₂ hn hb hp hb' h₃ hd hq hd' he, rfl⟩, trivial, rfl⟩
  · rintro ⟨_, r, rfl, ⟨h, hk⟩, -, rfl⟩
    cases h with
    | @insert k₁ k₂ n b b' k₃ d d' e p q columns values h₁ h₂ hn hb hp hb' h₃ hd hq hd' he =>
      refine ⟨k₁, _, rfl, h₁, k₂, _, rfl, h₂, n, _, rfl, hn, b, _, rfl, hb, columns, p,
        b' :: k₃ :: d :: (q ++ d' :: e :: r), by simp, hp, ?_, b', _, rfl, hb', k₃, _, rfl, h₃, d,
        _, rfl, hd, values, q, d' :: e :: r, rfl, hq, ?_, d', _, rfl, hd', e, r, rfl, he, rfl, rfl⟩
      · simp [ahead_cons, hb']
      · simp [ahead_cons, hd']
    | _ => cases hk

theorem reads_delete : (delete (σ := Tape)).Reads (StatementWith .delete) := by
  intro ts l st t'
  simp only [delete, name, run_keyword_bind_eq_ok_iff, run_identifier_bind_eq_ok_iff,
    recognizes_whereClause.run_bind_eq_ok_iff, run_mark_bind_eq_ok_iff, run_pure_eq_ok_iff]
  constructor
  · rintro ⟨k₁, _, rfl, h₁, k₂, _, rfl, h₂, n, _, rfl, hn, c, q, _, rfl, hq, -, e, r, rfl, he, rfl,
      rfl⟩
    exact ⟨_, r, by simp, ⟨.delete h₁ h₂ hn hq he, rfl⟩, trivial, rfl⟩
  · rintro ⟨_, r, rfl, ⟨h, hk⟩, -, rfl⟩
    cases h with
    | @delete k₁ k₂ n e q c h₁ h₂ hn hq he =>
      refine ⟨k₁, _, rfl, h₁, k₂, _, rfl, h₂, n, _, rfl, hn, c, q, e :: r, by simp, hq, ?_, e, r,
        rfl, he, rfl, rfl⟩
      simp [ahead_cons, he]
    | _ => cases hk

theorem reads_dropTable : (dropTable (σ := Tape)).Reads (StatementWith .drop) := by
  intro ts l st t'
  simp only [dropTable, name, run_keyword_bind_eq_ok_iff, run_identifier_bind_eq_ok_iff,
    run_mark_bind_eq_ok_iff, run_pure_eq_ok_iff]
  constructor
  · rintro ⟨k₁, _, rfl, h₁, k₂, _, rfl, h₂, n, _, rfl, hn, e, r, rfl, he, rfl, rfl⟩
    exact ⟨_, r, by simp, ⟨.dropTable h₁ h₂ hn he, rfl⟩, trivial, rfl⟩
  · rintro ⟨_, r, rfl, ⟨h, hk⟩, -, rfl⟩
    cases h with
    | @dropTable k₁ k₂ n e h₁ h₂ hn he =>
      exact ⟨k₁, _, rfl, h₁, k₂, _, rfl, h₂, n, _, rfl, hn, e, r, rfl, he, rfl, rfl⟩
    | _ => cases hk

/-- **The statement rule reads exactly the sentences of the grammar.** -/
theorem reads_statement : (statement (σ := Tape)).Reads Derives := by
  intro ts l st t'
  have hrun : ∀ {x : Rule Tape Statement} {k : Keyword} {t : Token}, x.Reads (StatementWith k) →
      t.kind = .keyword k → t ∈ ts.head? →
      (x.run ⟨ts, l⟩ = (.ok st, t') ↔ ∃ p r, ts = p ++ r ∧ Derives p st ∧ True ∧ t' = ⟨r, l⟩) := by
    intro x k t hx hk ht
    refine (hx _ _ _ _).trans ⟨?_, ?_⟩
    · rintro ⟨p, r, hts, ⟨h, -⟩, -, h'⟩
      exact ⟨p, r, hts, h, trivial, h'⟩
    · rintro ⟨p, r, rfl, h, -, h'⟩
      refine ⟨p, r, rfl, ⟨h, ?_⟩, trivial, h'⟩
      obtain ⟨u, q, rfl, hu⟩ := h.exists_cons
      obtain rfl : u = t := by simpa using ht
      rw [hk] at hu
      injection hu with hu
      exact hu.symm
  rcases ts with _ | ⟨t, ts⟩
  · constructor
    · intro h
      cases h
    · rintro ⟨p, r, hp, h, -, -⟩
      obtain ⟨u, q, rfl, -⟩ := h.exists_cons
      cases hp
  · simp only [statement, run_bind, look, TokenSource.peek, Tape.peek]
    split
    · next hk => exact hrun reads_createTable hk rfl
    · next hk => exact hrun reads_select hk rfl
    · next hk => exact hrun reads_insert hk rfl
    · next hk => exact hrun reads_delete hk rfl
    · next hk => exact hrun reads_dropTable hk rfl
    · next h₁ h₂ h₃ h₄ h₅ =>
      constructor
      · intro h
        cases h
      · rintro ⟨p, r, hp, h, -, -⟩
        obtain ⟨u, q, rfl, hu⟩ := h.exists_cons
        obtain rfl : t = u := (List.cons.inj hp).1
        cases st with
        | createTable => exact (h₁ hu).elim
        | select => exact (h₂ hu).elim
        | insert => exact (h₃ hu).elim
        | delete => exact (h₄ hu).elim
        | dropTable => exact (h₅ hu).elim

end Grammar

/-! ## Sentences at the front of what is ahead -/

/-- No list of tokens starts with two sentences. -/
theorem Derives.unique {p p' r r' : List Token} {s s' : Statement} (h : Derives p s)
    (h' : Derives p' s') (he : p ++ r = p' ++ r') : p = p' ∧ s = s' := by
  have hs := (Grammar.reads_statement _ .start _ _).2 ⟨p, r, rfl, h, trivial, rfl⟩
  have hs' := (Grammar.reads_statement _ .start _ _).2 ⟨p', r', rfl, h', trivial, rfl⟩
  rw [he, hs'] at hs
  simp only [Prod.mk.injEq, Except.ok.injEq, Tape.mk.injEq, and_true] at hs
  obtain ⟨rfl, rfl⟩ := hs
  exact ⟨List.append_cancel_right he, rfl⟩

theorem Derives.exists_concat {p : List Token} {s : Statement} (h : Derives p s) :
    ∃ q e, p = q ++ [e] ∧ e.kind = .mark .semicolon := by
  cases h with
  | @createTable k₁ k₂ n l r e p _ _ _ _ _ _ _ he =>
    exact ⟨k₁ :: k₂ :: n :: l :: (p ++ [r]), e, by simp, he⟩
  | @select k₁ k₂ n e p q _ _ _ _ _ _ _ he =>
    exact ⟨k₁ :: (p ++ k₂ :: n :: q), e, by simp, he⟩
  | @insert k₁ k₂ n l r k₃ l' r' e p q _ _ _ _ _ _ _ _ _ _ _ _ he =>
    exact ⟨k₁ :: k₂ :: n :: l :: (p ++ r :: k₃ :: l' :: (q ++ [r'])), e, by simp, he⟩
  | @delete k₁ k₂ n e q _ _ _ _ _ he => exact ⟨k₁ :: k₂ :: n :: q, e, by simp, he⟩
  | @dropTable k₁ k₂ n e _ _ _ he => exact ⟨[k₁, k₂, n], e, rfl, he⟩

/-- **Reading a statement is finding a sentence in front.** From a reachable scanner, whether or
not a token is pending, the statement rule succeeds with a tree and certain tokens left if and only
if the tokens ahead are a sentence that writes this tree and then those tokens. No list of tokens
starts with two sentences. -/
theorem statement_run_iff_derives {text : String} {s : Scanner} (h : s.Reachable text) :
    (∀ st r, (∃ s', Grammar.statement.run s = (.ok st, s') ∧ s'.remaining = r) ↔
      ∃ p, s.remaining = p ++ r ∧ Derives p st) ∧
    ∀ r p p' q q' st st', r = p ++ q → Derives p st → r = p' ++ q' → Derives p' st' →
      p = p' ∧ st = st' := by
  obtain ⟨⟨ts, l⟩, ht⟩ := h.exists_readsAs
  have hrun := Scanner.simulation_readsAs.statement ht
  have hrem : s.remaining = ts ++ [.endOfInput l] := ht.remaining_eq
  refine ⟨fun st r => ⟨?_, ?_⟩, ?_⟩
  · rintro ⟨s', hs', rfl⟩
    rw [hs'] at hrun
    generalize hy : Grammar.statement.run (⟨ts, l⟩ : Tape) = y at hrun
    cases hrun with
    | ok h' =>
      obtain ⟨p, r, rfl, hp, -, rfl⟩ := (Grammar.reads_statement _ _ _ _).1 hy
      refine ⟨p, ?_, hp⟩
      rw [hrem, h'.remaining_eq, List.append_assoc]
  · rintro ⟨p, hp, hd⟩
    obtain ⟨q, e, rfl, he⟩ := hd.exists_concat
    rw [hrem] at hp
    -- what is left holds the end of input, since a sentence ends with a semicolon
    rcases List.eq_nil_or_concat r with rfl | ⟨r, u, rfl⟩
    · rw [List.append_nil] at hp
      obtain ⟨-, hu⟩ := List.append_inj' hp rfl
      obtain rfl := (List.cons.inj hu).1
      cases he
    · rw [List.concat_eq_append, ← List.append_assoc] at hp
      obtain ⟨rfl, hu⟩ := List.append_inj' hp rfl
      obtain rfl := (List.cons.inj hu).1
      have hy := (Grammar.reads_statement _ l _ _).2 ⟨q ++ [e], r, rfl, hd, trivial, rfl⟩
      rw [hy] at hrun
      generalize hs : Grammar.statement.run s = x at hrun
      cases hrun with
      | ok h' => exact ⟨_, rfl, by rw [h'.remaining_eq, List.concat_eq_append]⟩
  · rintro r p p' q q' st st' rfl hp hr hp'
    exact hp.unique hp' hr

/-- With the first word pending, `DROP TABLE t;` is a sentence. -/
theorem exists_derives_dropTable_pending :
    (Scanner.ofString "DROP TABLE t;").peek.2.Reachable "DROP TABLE t;" ∧
      ∃ p, (Scanner.ofString "DROP TABLE t;").peek.2.remaining =
          p ++ (Grammar.statement.run (Scanner.ofString "DROP TABLE t;").peek.2).2.remaining ∧
        Derives p (.dropTable "t") :=
  ⟨.peek .start,
    ((statement_run_iff_derives (.peek .start)).1 _ _).1 ⟨_, Prod.ext (by rfl) rfl, rfl⟩⟩

end SqlScript
