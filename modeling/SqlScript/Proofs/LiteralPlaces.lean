import SqlScript.Proofs.Viability

/-!
# The places of literals

A literal stands in a list of values or on one side of a comparison. `Phrase.AroundLiteral p q f`
says that `p` and `q` stand in front of such a place and behind it, and that `f v` is the statement
around the literal `v`. A token that writes a literal completes the sentence
(`Phrase.AroundLiteral.derives`). A token of that sort that writes none, because it is out of range,
is where the statement fails, whatever comes behind it
(`Phrase.AroundLiteral.run_statement_of_error`).
-/

namespace SqlScript

open TokenSource

variable {α β : Type}

/-! ## Around a literal -/

namespace Phrase

/-- A phrase in front of a comma. -/
inductive BeforeComma (D : Phrase α) : Phrase α
  | intro {c : Token} {p : List Token} {a : α} (h : D p a) (hc : c.kind = .mark .comma) :
      BeforeComma D (p ++ [c]) a

/-- What stands in front of a condition, and the statement that it becomes with it. -/
inductive UpToCondition : List Token → (Condition → Statement) → Prop
  | select {k₁ k₂ n w : Token} {p : List Token} {columns : List String}
      (h₁ : k₁.kind = .keyword .select) (hp : Names p columns) (h₂ : k₂.kind = .keyword .from_)
      (hn : n.kind = .identifier) (hw : w.kind = .keyword .where_) :
      UpToCondition (k₁ :: (p ++ [k₂, n, w])) fun c => .select columns n.text (some c)
  | delete {k₁ k₂ n w : Token} (h₁ : k₁.kind = .keyword .delete) (h₂ : k₂.kind = .keyword .from_)
      (hn : n.kind = .identifier) (hw : w.kind = .keyword .where_) :
      UpToCondition [k₁, k₂, n, w] fun c => .delete n.text (some c)

/-- What stands in front of a literal and behind it, and the statement around it: the literal is
one of the values to insert, or the left or the right side of a comparison. -/
inductive AroundLiteral : List Token → List Token → (Value → Statement) → Prop
  | value {k₁ k₂ n l r k₃ l' r' e : Token} {p q q' : List Token} {columns : List String}
      {values values' : List Value} (h₁ : k₁.kind = .keyword .insert)
      (h₂ : k₂.kind = .keyword .into) (hn : n.kind = .identifier) (hl : l.kind = .mark .leftParen)
      (hp : CommaList Name p columns) (hr : r.kind = .mark .rightParen)
      (h₃ : k₃.kind = .keyword .values) (hl' : l'.kind = .mark .leftParen)
      (hq : Repeated (BeforeComma OfValue) q values)
      (hq' : Repeated (AfterComma OfValue) q' values')
      (hr' : r'.kind = .mark .rightParen) (he : e.kind = .mark .semicolon) :
      AroundLiteral (k₁ :: k₂ :: n :: l :: (p ++ r :: k₃ :: l' :: q)) (q' ++ [r', e])
        fun v => .insert n.text columns (values ++ v :: values')
  | left {p : List Token} {f : Condition → Statement} {o r e : Token} {c : Comparison}
      {right : Operand} (h : UpToCondition p f) (ho : o.kind = .comparison c)
      (hr : WritesOperand r right) (he : e.kind = .mark .semicolon) :
      AroundLiteral p [o, r, e] fun v => f ⟨.value v, c, right⟩
  | right {p : List Token} {f : Condition → Statement} {l o e : Token} {c : Comparison}
      {left : Operand} (h : UpToCondition p f) (hl : WritesOperand l left)
      (ho : o.kind = .comparison c) (he : e.kind = .mark .semicolon) :
      AroundLiteral (p ++ [l, o]) [e] fun v => f ⟨left, c, .value v⟩

/-! ## A literal at its place -/

theorem CommaList.cons {D : Phrase α} {c : Token} {p q : List Token} {a : α} {as : List α}
    (h : D p a) (hc : c.kind = .mark .comma) (hs : CommaList D q as) :
    CommaList D (p ++ c :: q) (a :: as) := by
  cases hs with
  | intro h' hs' => exact .intro h (.cons (.intro hc h') hs')

/-- A list around one of its phrases. -/
theorem CommaList.around {D : Phrase α} {p q r : List Token} {as bs : List α} {a : α}
    (hp : Repeated (BeforeComma D) p as) (hq : D q a) (hr : Repeated (AfterComma D) r bs) :
    CommaList D (p ++ (q ++ r)) (as ++ a :: bs) := by
  induction hp with
  | nil => exact (.intro hq hr : OneThen D (AfterComma D) (q ++ r) (a :: bs))
  | cons hd _ ih =>
    obtain ⟨hd, hc⟩ := hd
    simpa using CommaList.cons hd hc ih

theorem UpToCondition.derives {p q : List Token} {f : Condition → Statement} {c : Condition}
    {e : Token} (h : UpToCondition p f) (hc : OfCondition q c) (he : e.kind = .mark .semicolon) :
    Derives (p ++ (q ++ [e])) (f c) := by
  cases h with
  | select h₁ hp h₂ hn hw =>
    have hd := Derives.select h₁ hp h₂ hn (.present hw hc) he
    simpa using hd
  | delete h₁ h₂ hn hw =>
    have hd := Derives.delete h₁ h₂ hn (.present hw hc) he
    simpa using hd

/-- **A token that writes a literal completes the sentence.** -/
theorem AroundLiteral.derives {p q : List Token} {f : Value → Statement} {t : Token} {v : Value}
    (h : AroundLiteral p q f) (hv : WritesValue t v) : Derives (p ++ t :: q) (f v) := by
  cases h with
  | value h₁ h₂ hn hl hp hr h₃ hl' hq hq' hr' he =>
    have hvalues := CommaList.around hq (.intro hv : OfValue [t] v) hq'
    have hd := Derives.insert h₁ h₂ hn hl hp hr h₃ hl' hvalues hr' he
    simpa using hd
  | left h ho hr he => exact h.derives (.intro (.value hv) ho hr) he
  | right h hl ho he =>
    have hd := h.derives (.intro hl ho (.value hv)) he
    simpa using hd

end Phrase

/-! ## Rules that come to a literal -/

namespace Rule

variable {x : Rule Tape α} {f : α → Rule Tape β} {l : Location}

/-- Behind a phrase in front, the next rule goes on. -/
theorem Recognizes.run_bind {D : Phrase α} {F : α → List Token → Prop} (h : x.Recognizes D F)
    {p r : List Token} {a : α} (hp : D p a) (hr : F a r) :
    (x >>= f).run ⟨p ++ r, l⟩ = (f a).run ⟨r, l⟩ := by
  rw [Rule.run_bind, (h _ _ _ _).2 ⟨p, r, rfl, hp, hr, rfl⟩]

theorem run_bind_of_error {s t' : Tape} {e : SyntaxError} (h : x.run s = (.error e, t')) :
    (x >>= f).run s = (.error e, t') := by
  rw [Rule.run_bind, h]

/-- Behind a fixed word, the next rule goes on. -/
theorem run_expect_bind {k : Kind} {g : String → Rule Tape β} {t : Token} (h : t.kind = k)
    (r : List Token) : (expect k >>= g).run ⟨t :: r, l⟩ = (g t.text).run ⟨r, l⟩ := by
  simp [Rule.run_bind, expect, token, peek, take, Tape.peek, Tape.take, h]

end Rule

namespace Grammar

open Rule Phrase

variable {x : Rule Tape α} {l : Location}

theorem run_name_bind {g : String → Rule Tape β} {t : Token} (h : t.kind = .identifier)
    (r : List Token) : (name >>= g).run ⟨t :: r, l⟩ = (g t.text).run ⟨r, l⟩ :=
  run_expect_bind h r

/-- Behind a comma, the later items of a list are a list. -/
theorem run_moreItems {c : Token} (hc : c.kind = .mark .comma) (ts : List Token) :
    (collect (nextItem x) (nextItem_advances x)).run ⟨c :: ts, l⟩ = (commaList x).run ⟨ts, l⟩ := by
  have hnext : (nextItem x).run ⟨c :: ts, l⟩ = (some <$> x).run ⟨ts, l⟩ := by
    rw [nextItem, run_bind, run_accept (by decide)]
    simp [hc]
  rw [run_collect, hnext, run_map, commaList, run_bind]
  rcases x.run ⟨ts, l⟩ with ⟨e | a, s⟩
  · rfl
  · dsimp only
    rw [run_map, run_bind]
    rcases (collect (nextItem x) (nextItem_advances x)).run s with ⟨e | as, s'⟩ <;> rfl

/-- A list fails where a later item does. -/
theorem run_commaList_of_error {D : Phrase α} (hx : x.Reads D) {p ts : List Token} {as : List α}
    (hp : Repeated (BeforeComma D) p as) {e : SyntaxError} {t' : Tape}
    (h : x.run ⟨ts, l⟩ = (.error e, t')) : (commaList x).run ⟨p ++ ts, l⟩ = (.error e, t') := by
  -- on the items in front: behind a comma, the later items fail as a list of their own
  induction hp with
  | nil => exact run_bind_of_error h
  | cons hd _ ih =>
    obtain ⟨hd, hc⟩ := hd
    rw [List.append_assoc, List.append_assoc, List.singleton_append, commaList,
      hx.run_bind hd trivial]
    exact run_bind_of_error ((run_moreItems hc _).trans ih)

/-- A token that is not accepted is where the rule fails. -/
theorem run_token_of_error {g : Token → Except Expectation α} {t : Token} {y : Expectation}
    (h : g t = .error y) (r : List Token) :
    (token g).run (⟨t :: r, l⟩ : Tape) = (.error ⟨y, t⟩, ⟨t :: r, l⟩) := by
  simp [token, peek, Tape.peek, h]

theorem run_statement_cons (t : Token) (ts : List Token) :
    statement.run (⟨t :: ts, l⟩ : Tape) = (startingWith t).run ⟨t :: ts, l⟩ :=
  run_statement _

/-- A `WHERE` clause fails where its condition does. -/
theorem run_whereClause_of_error {w : Token} (hw : w.kind = .keyword .where_) {ts : List Token}
    {e : SyntaxError} {t' : Tape} (h : condition.run ⟨ts, l⟩ = (.error e, t')) :
    whereClause.run ⟨w :: ts, l⟩ = (.error e, t') := by
  rw [whereClause, run_bind, run_accept (by decide)]
  simp [hw, run_map, h]

end Grammar

namespace Phrase

open Rule Grammar

variable {l : Location}

/-- A statement fails where its condition does. -/
theorem UpToCondition.run_statement_of_error {p ts : List Token} {f : Condition → Statement}
    (h : UpToCondition p f) {e : SyntaxError} {t' : Tape}
    (hc : condition.run ⟨ts, l⟩ = (.error e, t')) :
    statement.run (⟨p ++ ts, l⟩ : Tape) = (.error e, t') := by
  cases h with
  | @select k₁ k₂ n w p columns h₁ hp h₂ hn hw =>
    have hfrom : ahead (.keyword .from_) (k₂ :: n :: w :: ts) = true := decide_eq_true h₂
    simp only [List.cons_append, List.append_assoc, List.nil_append]
    have hstart : startingWith k₁ = Grammar.select := by simp only [startingWith, h₁]
    rw [run_statement_cons, hstart, Grammar.select, run_expect_bind h₁,
      recognizes_selected.run_bind hp hfrom, run_expect_bind h₂, run_name_bind hn]
    exact run_bind_of_error (run_whereClause_of_error hw hc)
  | @delete k₁ k₂ n w h₁ h₂ hn hw =>
    simp only [List.cons_append, List.nil_append]
    have hstart : startingWith k₁ = Grammar.delete := by simp only [startingWith, h₁]
    rw [run_statement_cons, hstart, Grammar.delete, run_expect_bind h₁, run_expect_bind h₂,
      run_name_bind hn]
    exact run_bind_of_error (run_whereClause_of_error hw hc)

/-- **A literal that is no value is where the statement fails**, whatever stands behind it. -/
theorem AroundLiteral.run_statement_of_error {p q : List Token} {f : Value → Statement}
    (h : AroundLiteral p q f) {t : Token} {d : DataType} (hk : t.kind = .literal d)
    {y : Expectation} (ht : Value.ofToken t = .error y) (r : List Token) :
    statement.run (⟨p ++ t :: r, l⟩ : Tape) = (.error ⟨y, t⟩, ⟨t :: r, l⟩) := by
  have hoperand : Operand.ofToken t = .error y := by
    rw [Operand.ofToken_of_literal hk, ht]
    rfl
  have hrun : operand.run (⟨t :: r, l⟩ : Tape) = (.error ⟨y, t⟩, ⟨t :: r, l⟩) :=
    run_token_of_error hoperand r
  cases h with
  | @value k₁ k₂ n b b' k₃ b'' _ _ p q _ _ _ _ h₁ h₂ hn hb hp hb' h₃ hb'' hq =>
    have hmore : ahead (.mark .comma) (b' :: k₃ :: b'' :: (q ++ t :: r)) = false := by
      simp [ahead_cons, hb']
    simp only [List.cons_append, List.append_assoc]
    have hstart : startingWith k₁ = Grammar.insert := by simp only [startingWith, h₁]
    rw [run_statement_cons, hstart, Grammar.insert, run_expect_bind h₁, run_expect_bind h₂,
      run_name_bind hn, run_expect_bind hb, (recognizes_commaList reads_name).run_bind hp hmore,
      run_expect_bind hb', run_expect_bind h₃, run_expect_bind hb'']
    exact run_bind_of_error (run_commaList_of_error reads_value hq (run_token_of_error ht r))
  | left h => exact h.run_statement_of_error (run_bind_of_error hrun)
  | @right p _ b o _ _ _ h hl ho =>
    rw [List.append_assoc]
    apply h.run_statement_of_error
    have hleft := fun f : Operand → Rule Tape Condition =>
      reads_operand.run_bind (f := f) (l := l) (r := o :: t :: r) (.intro hl) trivial
    have hop := fun f : Comparison → Rule Tape Condition =>
      reads_comparison.run_bind (f := f) (l := l) (r := t :: r) (.intro ho) trivial
    exact (hleft _).trans ((hop _).trans (run_bind_of_error hrun))

end Phrase

end SqlScript
