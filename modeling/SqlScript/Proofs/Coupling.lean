import SqlScript.Outcome

/-!
# Rules in step on two sources

A rule sees of a source only the kinds and the texts of the tokens it looks at. So on two sources
that show the same words it does the same: it gives the same value, or it fails with the same
expectation, in front of the token that each source shows there.

`Coupling R` says that `R` relates sources of that sort, as long as only inner tokens of a
statement are taken; `Rule.Coupled R Q` says that two rules end in step, in `Q` if they succeed
and still in `R` if they fail. One lemma for each way of composing rules gives
`Grammar.statement_coupled`. With `R` chosen to suit, it tells that a scanner reads like the tape
of its tokens, that positions do not matter, and that nothing behind a statement's semicolon does.
On a single source it tells what is true where a rule stops (`Rule.Coupled.ends`).
-/

namespace SqlScript

open TokenSource

/-- The kinds of tokens that a statement takes before its semicolon. -/
def Kind.isInner (k : Kind) : Bool :=
  k ≠ .mark .semicolon && k ≠ .endOfInput && k ≠ .unknown

theorem Kind.isInner_iff {k : Kind} :
    k.isInner = true ↔ k ≠ .mark .semicolon ∧ k ≠ .endOfInput ∧ k ≠ .unknown := by
  simp [isInner, and_assoc]

theorem Token.isEnd_eq_false_of_isInner {t : Token} (h : t.kind.isInner = true) :
    t.isEnd = false :=
  decide_eq_false (Kind.isInner_iff.1 h).2.1

variable {σ τ : Type} [TokenSource σ] [TokenSource τ] {α β : Type}

/-- `R` relates sources that show the same word, and still does so after a look at both, or after
an inner token was taken from both. -/
structure Coupling (R : σ → τ → Prop) : Prop where
  kind_peek : ∀ {s t}, R s t → (peek s).1.kind = (peek t).1.kind
  text_peek : ∀ {s t}, R s t → (peek s).1.text = (peek t).1.text
  peek : ∀ {s t}, R s t → R (peek s).2 (peek t).2
  take : ∀ {s t}, R s t → (TokenSource.peek s).1.kind.isInner = true → R (take s).2 (take t).2

theorem peek_peek (s : σ) : (peek (peek s).2).1 = (peek s).1 := by
  rw [fst_peek, take_peek, fst_peek]

theorem Coupling.take_peek {R : σ → τ → Prop} (hR : Coupling R) {s : σ} {t : τ} (h : R s t)
    (hk : (TokenSource.peek s).1.kind.isInner = true) :
    R (TokenSource.take (TokenSource.peek s).2).2 (TokenSource.take (TokenSource.peek t).2).2 := by
  rw [TokenSource.take_peek, TokenSource.take_peek]
  exact hR.take h hk

namespace Rule

/-- Two runs that end in step: with the same value and in `Q`, or with the same expectation and
in `R`, each in front of the token it could not accept. -/
inductive InStep (R Q : σ → τ → Prop) : Except SyntaxError α × σ → Except SyntaxError α × τ → Prop
  | ok {a : α} {s : σ} {t : τ} (h : Q s t) : InStep R Q (.ok a, s) (.ok a, t)
  | error {expected : Expectation} {u v : Token} {s : σ} {t : τ} (h : R s t)
      (hu : (peek s).1 = u) (hv : (peek t).1 = v) :
      InStep R Q (.error ⟨expected, u⟩, s) (.error ⟨expected, v⟩, t)

/-- Started on sources that `R` relates, the two rules end in step. -/
def Coupled (R Q : σ → τ → Prop) (x : Rule σ α) (y : Rule τ α) : Prop :=
  ∀ ⦃s t⦄, R s t → InStep R Q (x.run s) (y.run t)

/-- A function on tokens that does not see where a token stands. -/
def ReadsWord (f : Token → β) : Prop := ∀ k w l m, f ⟨k, w, l⟩ = f ⟨k, w, m⟩

theorem ReadsWord.congr {f : Token → β} (h : ReadsWord f) {u v : Token} (hk : u.kind = v.kind)
    (ht : u.text = v.text) : f u = f v := by
  obtain ⟨k, w, l⟩ := u
  obtain ⟨k', w', m⟩ := v
  obtain rfl : k = k' := hk
  obtain rfl : w = w' := ht
  exact h k w l m

/-! ## Composing -/

variable {R Q : σ → τ → Prop}

theorem Coupled.pure {a : α} (h : ∀ {s t}, R s t → Q s t) :
    Coupled R Q (Pure.pure a) (Pure.pure a) :=
  fun _ _ hs => .ok (h hs)

theorem Coupled.bind {x : Rule σ α} {y : Rule τ α} {f : α → Rule σ β} {g : α → Rule τ β}
    (hx : Coupled R R x y) (hf : ∀ a, Coupled R Q (f a) (g a)) :
    Coupled R Q (x >>= f) (y >>= g) := by
  intro s t h
  have he := hx h
  rw [run_bind, run_bind]
  generalize x.run s = xs at he
  generalize y.run t = yt at he
  cases he with
  | ok h' => exact hf _ h'
  | error h' hu hv => exact .error h' hu hv

theorem InStep.map {x : Rule σ α} {y : Rule τ α} (g : α → β) {s : σ} {t : τ}
    (h : InStep R Q (x.run s) (y.run t)) :
    InStep R Q ((g <$> x).run s) ((g <$> y).run t) := by
  rw [run_map, run_map]
  generalize x.run s = xs at h
  generalize y.run t = yt at h
  cases h with
  | ok h' => exact .ok h'
  | error h' hu hv => exact .error h' hu hv

theorem Coupled.map {x : Rule σ α} {y : Rule τ α} (g : α → β) (hx : Coupled R Q x y) :
    Coupled R Q (g <$> x) (g <$> y) :=
  fun _ _ h => (hx h).map g

theorem Coupled.bind_pure {x : Rule σ α} {y : Rule τ α} {g : α → β} (hx : Coupled R Q x y) :
    Coupled R Q (x >>= fun a => Pure.pure (g a)) (y >>= fun a => Pure.pure (g a)) :=
  hx.map g

theorem Coupled.mono {Q' : σ → τ → Prop} {x : Rule σ α} {y : Rule τ α} (hx : Coupled R Q x y)
    (h : ∀ {s t}, Q s t → Q' s t) : Coupled R Q' x y := by
  intro s t hs
  have he := hx hs
  generalize x.run s = xs at he
  generalize y.run t = yt at he
  cases he with
  | ok h' => exact .ok (h h')
  | error h' hu hv => exact .error h' hu hv

/-! ## Single tokens -/

theorem token_coupled (hR : Coupling R) {f : Token → Except Expectation α} (hf : ReadsWord f)
    (hi : ∀ t a, f t = .ok a → t.kind.isInner = true) :
    Coupled R R (token (σ := σ) f) (token (σ := τ) f) := by
  intro s t h
  have he := hf.congr (hR.kind_peek h) (hR.text_peek h)
  simp only [token, ← he]
  split
  · next a ha => exact .ok (hR.take_peek h (hi _ _ ha))
  · exact .error (hR.peek h) (peek_peek s) (peek_peek t)

theorem expect_coupled_of (hR : Coupling R) {k : Kind}
    (hk : ∀ {s t}, R s t → (peek s).1.kind = k → Q (take (peek s).2).2 (take (peek t).2).2) :
    Coupled R Q (expect (σ := σ) k) (expect (σ := τ) k) := by
  intro s t h
  simp only [expect, token, ← hR.kind_peek h, ← hR.text_peek h]
  by_cases hs : (peek s).1.kind = k
  · simp only [hs, if_true]
    exact .ok (hk h hs)
  · simp only [hs, if_false]
    exact .error (hR.peek h) (peek_peek s) (peek_peek t)

theorem expect_coupled (hR : Coupling R) {k : Kind} (hk : k.isInner = true) :
    Coupled R R (expect (σ := σ) k) (expect (σ := τ) k) :=
  expect_coupled_of hR fun h hs => hR.take_peek h (hs ▸ hk)

theorem accept_coupled (hR : Coupling R) {k : Kind} (hk : k.isInner = true) :
    Coupled R R (accept (σ := σ) k) (accept (σ := τ) k) := by
  intro s t h
  simp only [accept, ← hR.kind_peek h]
  split
  · next hs => exact .ok (hR.take_peek h (hs ▸ hk))
  · exact .ok (hR.peek h)

/-! ## Repetition -/

theorem collectOnto_eq (step : Rule σ (Option α)) (h : step.Advances) (acc : Array α) (s : σ) :
    collectOnto step h acc s =
      match (collect step h).run s with
      | (.ok as, s') => (.ok (acc.toList ++ as), s')
      | (.error e, s') => (.error e, s') := by
  suffices ∀ acc' : Array α, collectOnto step h (acc ++ acc') s =
      match collectOnto step h acc' s with
      | (.ok as, s') => (.ok (acc.toList ++ as), s')
      | (.error e, s') => (.error e, s') by
    have h' := this #[]
    rwa [Array.append_empty] at h'
  intro acc'
  fun_induction collectOnto step h acc' s with
  | case1 acc' s e s' hs => rw [collectOnto, hs]
  | case2 acc' s s' hs => rw [collectOnto, hs]; simp
  | case3 acc' s a s' hs ih => rw [collectOnto, hs]; simpa using ih

/-- A repetition makes one round and then goes on, or ends with it. -/
theorem run_collect (step : Rule σ (Option α)) (h : step.Advances) (s : σ) :
    (collect step h).run s =
      match step.run s with
      | (.error e, s') => (.error e, s')
      | (.ok none, s') => (.ok [], s')
      | (.ok (some a), s') => (List.cons a <$> collect step h).run s' := by
  change collectOnto step h #[] s = _
  rw [collectOnto]
  split
  · next hs => simp only [hs]
  · next hs => simp only [hs]
  · next a s' hs =>
    rw [hs, collectOnto_eq]
    change _ = (List.cons a <$> collect step h).run s'
    rw [run_map]
    rcases (collect step h).run s' with ⟨_ | _, _⟩ <;> rfl

theorem collect_coupled {step : Rule σ (Option α)} {step' : Rule τ (Option α)} {h : step.Advances}
    {h' : step'.Advances} (hc : Coupled R R step step') :
    Coupled R R (collect step h) (collect step' h') := by
  intro s
  -- by induction on the size of the source, which every round but the last lowers
  induction hn : size s using Nat.strongRecOn generalizing s with
  | ind n ih =>
    intro t hst
    have hr := hc hst
    rw [run_collect, run_collect]
    generalize hs : step.run s = xs at hr ⊢
    generalize ht : step'.run t = yt at hr ⊢
    cases hr with
    | error h₁ hu hv => exact .error h₁ hu hv
    | @ok o s' t' h₁ =>
      cases o with
      | none => exact .ok h₁
      | some a =>
        have hlt : size s' < n := hn ▸ h s _ s' hs rfl
        exact (ih _ hlt rfl h₁).map (List.cons a)

end Rule

/-! ## Meanings of tokens -/

theorem Value.readsWord_ofToken : Rule.ReadsWord Value.ofToken := fun k w l m => by
  simp only [Value.ofToken]

theorem Operand.ofToken_of_literal {t : Token} {d : DataType} (h : t.kind = .literal d) :
    Operand.ofToken t = (Value.ofToken t).map .value := by
  simp only [Operand.ofToken, h]

theorem Operand.readsWord_ofToken : Rule.ReadsWord Operand.ofToken := by
  intro k w l m
  cases k with
  | literal d =>
    rw [ofToken_of_literal rfl, ofToken_of_literal rfl, Value.readsWord_ofToken _ w l m]
  | _ => simp only [Operand.ofToken]

theorem Comparison.readsWord_ofToken : Rule.ReadsWord Comparison.ofToken := fun _ _ _ _ => rfl

theorem DataType.readsWord_ofToken : Rule.ReadsWord DataType.ofToken := fun _ _ _ _ => rfl

theorem Value.kind_of_ofToken {t : Token} {v : Value} (h : Value.ofToken t = .ok v) :
    ∃ d, t.kind = .literal d := by
  cases hk : t.kind with
  | literal d => exact ⟨d, rfl⟩
  | _ => simp only [Value.ofToken, hk] at h; cases h

theorem Operand.kind_of_ofToken {t : Token} {o : Operand} (h : Operand.ofToken t = .ok o) :
    t.kind = .identifier ∨ ∃ d, t.kind = .literal d := by
  unfold Operand.ofToken at h
  split at h
  · next hk => exact .inl hk
  · next hk => exact .inr ⟨_, hk⟩
  · cases h

theorem Comparison.ofToken_eq_ok_iff {t : Token} {c : Comparison} :
    Comparison.ofToken t = .ok c ↔ t.kind = .comparison c := by
  unfold Comparison.ofToken
  split
  · next hk => simp [hk]
  · next hk => exact ⟨fun h => (by cases h), fun h => (hk c h).elim⟩

theorem DataType.ofToken_eq_ok_iff {t : Token} {d : DataType} :
    DataType.ofToken t = .ok d ↔ t.kind = .keyword (.type d) := by
  unfold DataType.ofToken
  split
  · next hk => simp [hk]
  · next hk => exact ⟨fun h => (by cases h), fun h => (hk d h).elim⟩

namespace Grammar

open Rule

variable {R Q : σ → τ → Prop}

/-! ## The rules of the grammar -/

theorem name_coupled (hR : Coupling R) : Coupled R R (name (σ := σ)) (name (σ := τ)) :=
  expect_coupled hR rfl

theorem nextItem_coupled (hR : Coupling R) {x : Rule σ α} {y : Rule τ α} (h : Coupled R R x y) :
    Coupled R R (nextItem x) (nextItem y) := by
  refine (accept_coupled hR rfl).bind fun b => ?_
  cases b with
  | false => exact .pure id
  | true => exact h.map some

theorem commaList_coupled (hR : Coupling R) {x : Rule σ α} {y : Rule τ α} (h : Coupled R R x y) :
    Coupled R R (commaList x) (commaList y) :=
  h.bind fun _ => (collect_coupled (nextItem_coupled hR h)).bind_pure

theorem nextSelected_coupled (hR : Coupling R) :
    Coupled R R (nextSelected (σ := σ)) (nextSelected (σ := τ)) := by
  intro s t h
  simp only [nextSelected, run_bind, look, ← hR.kind_peek h]
  split
  · exact .ok (hR.peek h)
  · exact (name_coupled hR).map some (hR.peek h)

theorem selected_coupled (hR : Coupling R) :
    Coupled R R (selected (σ := σ)) (selected (σ := τ)) :=
  (name_coupled hR).bind fun _ => (collect_coupled (nextSelected_coupled hR)).bind_pure

theorem value_coupled (hR : Coupling R) : Coupled R R (value (σ := σ)) (value (σ := τ)) :=
  token_coupled hR Value.readsWord_ofToken fun t v h => by
    obtain ⟨d, hk⟩ := Value.kind_of_ofToken h
    rw [hk]
    rfl

theorem operand_coupled (hR : Coupling R) : Coupled R R (operand (σ := σ)) (operand (σ := τ)) :=
  token_coupled hR Operand.readsWord_ofToken fun t o h => by
    rcases Operand.kind_of_ofToken h with hk | ⟨d, hk⟩ <;> rw [hk] <;> rfl

theorem comparison_coupled (hR : Coupling R) :
    Coupled R R (comparison (σ := σ)) (comparison (σ := τ)) :=
  token_coupled hR Comparison.readsWord_ofToken fun t c h => by
    rw [Comparison.ofToken_eq_ok_iff.1 h]
    rfl

theorem condition_coupled (hR : Coupling R) :
    Coupled R R (condition (σ := σ)) (condition (σ := τ)) := by
  refine (operand_coupled hR).bind fun l => ?_
  exact (comparison_coupled hR).bind fun c => (operand_coupled hR).bind_pure

theorem whereClause_coupled (hR : Coupling R) :
    Coupled R R (whereClause (σ := σ)) (whereClause (σ := τ)) := by
  refine (accept_coupled hR rfl).bind fun b => ?_
  cases b with
  | false => exact .pure id
  | true => exact (condition_coupled hR).map some

theorem column_coupled (hR : Coupling R) : Coupled R R (column (σ := σ)) (column (σ := τ)) := by
  refine (name_coupled hR).bind fun n => Coupled.bind_pure ?_
  exact token_coupled hR DataType.readsWord_ofToken fun t d h => by
    rw [DataType.ofToken_eq_ok_iff.1 h]
    rfl

section
variable (hR : Coupling R)
  (last : ∀ {s t}, R s t → (peek s).1.kind = .mark .semicolon → Q (take s).2 (take t).2)
include hR last

theorem semicolon_coupled :
    Coupled R Q (expect (σ := σ) (.mark .semicolon)) (expect (σ := τ) (.mark .semicolon)) :=
  expect_coupled_of hR fun h hs => by
    rw [take_peek, take_peek]
    exact last h hs

theorem createTable_coupled : Coupled R Q (createTable (σ := σ)) (createTable (σ := τ)) := by
  refine (expect_coupled hR rfl).bind fun _ => (expect_coupled hR rfl).bind fun _ => ?_
  refine (name_coupled hR).bind fun table => (expect_coupled hR rfl).bind fun _ => ?_
  refine (commaList_coupled hR (column_coupled hR)).bind fun columns => ?_
  exact (expect_coupled hR rfl).bind fun _ => (semicolon_coupled hR last).bind_pure

theorem select_coupled : Coupled R Q (select (σ := σ)) (select (σ := τ)) := by
  refine (expect_coupled hR rfl).bind fun _ => (selected_coupled hR).bind fun columns => ?_
  refine (expect_coupled hR rfl).bind fun _ => (name_coupled hR).bind fun table => ?_
  exact (whereClause_coupled hR).bind fun c => (semicolon_coupled hR last).bind_pure

theorem insert_coupled : Coupled R Q (insert (σ := σ)) (insert (σ := τ)) := by
  refine (expect_coupled hR rfl).bind fun _ => (expect_coupled hR rfl).bind fun _ => ?_
  refine (name_coupled hR).bind fun table => (expect_coupled hR rfl).bind fun _ => ?_
  refine (commaList_coupled hR (name_coupled hR)).bind fun columns => ?_
  refine (expect_coupled hR rfl).bind fun _ => (expect_coupled hR rfl).bind fun _ => ?_
  refine (expect_coupled hR rfl).bind fun _ => ?_
  refine (commaList_coupled hR (value_coupled hR)).bind fun values => ?_
  exact (expect_coupled hR rfl).bind fun _ => (semicolon_coupled hR last).bind_pure

theorem delete_coupled : Coupled R Q (delete (σ := σ)) (delete (σ := τ)) := by
  refine (expect_coupled hR rfl).bind fun _ => (expect_coupled hR rfl).bind fun _ => ?_
  refine (name_coupled hR).bind fun table => ?_
  exact (whereClause_coupled hR).bind fun c => (semicolon_coupled hR last).bind_pure

theorem dropTable_coupled : Coupled R Q (dropTable (σ := σ)) (dropTable (σ := τ)) := by
  refine (expect_coupled hR rfl).bind fun _ => (expect_coupled hR rfl).bind fun _ => ?_
  exact (name_coupled hR).bind fun table => (semicolon_coupled hR last).bind_pure

/-- **Statements are read in step** on sources that show the same words: with the same tree and
the semicolon taken, or with the same expectation and no token but inner ones taken. -/
theorem statement_coupled : Coupled R Q (statement (σ := σ)) (statement (σ := τ)) := by
  intro s t h
  simp only [statement, run_bind, look, ← hR.kind_peek h]
  split
  · exact createTable_coupled hR last (hR.peek h)
  · exact select_coupled hR last (hR.peek h)
  · exact insert_coupled hR last (hR.peek h)
  · exact delete_coupled hR last (hR.peek h)
  · exact dropTable_coupled hR last (hR.peek h)
  · exact .error (hR.peek h) (peek_peek s) (peek_peek t)

end

end Grammar

/-! ## What inner tokens keep true -/

section
variable {P Q : σ → Prop}

/-- `P` stays true after a look at the next token, and after an inner token was taken. -/
structure Kept (P : σ → Prop) : Prop where
  peek : ∀ {s}, P s → P (TokenSource.peek s).2
  take : ∀ {s}, P s → (TokenSource.peek s).1.kind.isInner = true → P (TokenSource.take s).2

/-- A run that ends in `Q` if it succeeds, and otherwise in `P`, in front of the token that the
error names. -/
inductive Rule.Ends (P Q : σ → Prop) : Except SyntaxError α × σ → Prop
  | ok {a : α} {s : σ} (h : Q s) : Ends P Q (.ok a, s)
  | error {e : SyntaxError} {s : σ} (h : P s) (he : (peek s).1 = e.token) : Ends P Q (.error e, s)

/-- A source is in step with itself as long as `P` is kept. -/
theorem Kept.coupling (hP : Kept P) : Coupling (fun s t : σ => s = t ∧ P s) where
  kind_peek := by
    rintro s _ ⟨rfl, -⟩
    rfl
  text_peek := by
    rintro s _ ⟨rfl, -⟩
    rfl
  peek := by
    rintro s _ ⟨rfl, h⟩
    exact ⟨rfl, hP.peek h⟩
  take := by
    rintro s _ ⟨rfl, h⟩ hk
    exact ⟨rfl, hP.take h hk⟩

theorem Rule.Coupled.ends {x : Rule σ α}
    (hx : Coupled (fun s t => s = t ∧ P s) (fun _ t => Q t) x x) {s : σ} (h : P s) :
    Ends P Q (x.run s) := by
  have hrun := hx ⟨rfl, h⟩
  generalize x.run s = y at hrun
  rcases y with ⟨e | a, s'⟩
  · cases hrun with
    | error h' hu _ => exact .error h'.2 hu
  · cases hrun with
    | ok h' => exact .ok h'

/-- What inner tokens keep true is true where a statement fails. If it is read instead, then what
the semicolon makes of that is true behind it. -/
theorem Kept.statement_ends (hP : Kept P)
    (last : ∀ {s}, P s → (TokenSource.peek s).1.kind = .mark .semicolon → Q (TokenSource.take s).2)
    {s : σ} (h : P s) : Rule.Ends P Q (Grammar.statement.run s) :=
  (Grammar.statement_coupled hP.coupling fun ⟨hst, h⟩ hk => hst ▸ last h hk).ends h

end

end SqlScript
