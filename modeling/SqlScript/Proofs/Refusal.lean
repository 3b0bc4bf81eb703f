import SqlScript.Proofs.Taken

/-!
# Rules stop in front of what they refuse

`GrammarRule` names the rules of the grammar, `StatementRule` those of them that read a whole
statement. Whatever rule fails, it has taken nothing but inner tokens of a statement, and it
stands in front of the token that its error reports. A statement that is read has taken its
semicolon last, and left nothing pending. That is what skipping to the next statement relies on.

`Begun` and `Finished` say what has been taken meanwhile, and the rules keep that as they keep every
coupling (`GrammarRule.ends`, `StatementRule.ends`). A scanner and its record are read in step, so
both can be seen on the record (`GrammarRule.took_of_error`, `StatementRule.took_of_ok`). The main
result is `rules_stop_in_front_of_refused`.
-/

namespace SqlScript

open TokenSource Rule

/-! ## The rules by name -/

/-- The rules for statements: one for each word that a statement may start with, and the one that
goes by that word. -/
inductive StatementRule
  | createTable
  | select
  | insert
  | delete
  | dropTable
  | statement

/-- The rules of the grammar, with the type of what they read. -/
inductive GrammarRule : Type → Type
  /-- A token of one kind. -/
  | expect (k : Kind) : GrammarRule String
  /-- Names with commas between them. -/
  | names : GrammarRule (List String)
  /-- Declarations of columns with commas between them. -/
  | columns : GrammarRule (List Column)
  /-- Literals with commas between them. -/
  | values : GrammarRule (List Value)
  /-- The columns to select. -/
  | selected : GrammarRule (List String)
  | whereClause : GrammarRule (Option Condition)
  | column : GrammarRule Column
  | value : GrammarRule Value
  | operand : GrammarRule Operand
  | comparison : GrammarRule Comparison
  | condition : GrammarRule Condition
  | statement (x : StatementRule) : GrammarRule Statement

variable {σ τ : Type} [TokenSource σ] [TokenSource τ] {α : Type}

/-- The rule of that name, for any source of tokens. -/
def StatementRule.rule : StatementRule → Rule σ Statement
  | createTable => Grammar.createTable
  | select => Grammar.select
  | insert => Grammar.insert
  | delete => Grammar.delete
  | dropTable => Grammar.dropTable
  | statement => Grammar.statement

/-- The rule of that name, for any source of tokens. -/
def GrammarRule.rule : GrammarRule α → Rule σ α
  | expect k => Rule.expect k
  | names => Grammar.commaList Grammar.name
  | columns => Grammar.commaList Grammar.column
  | values => Grammar.commaList Grammar.value
  | selected => Grammar.selected
  | whereClause => Grammar.whereClause
  | column => Grammar.column
  | value => Grammar.value
  | operand => Grammar.operand
  | comparison => Grammar.comparison
  | condition => Grammar.condition
  | statement x => x.rule

section
variable {R Q : σ → τ → Prop} (hR : Coupling R)
include hR

theorem StatementRule.coupled
    (last : ∀ {s t}, R s t → (peek s).1.kind = .mark .semicolon → Q (take s).2 (take t).2)
    (x : StatementRule) : Coupled R Q (x.rule (σ := σ)) (x.rule (σ := τ)) := by
  cases x with
  | createTable => exact Grammar.createTable_coupled hR last
  | select => exact Grammar.select_coupled hR last
  | insert => exact Grammar.insert_coupled hR last
  | delete => exact Grammar.delete_coupled hR last
  | dropTable => exact Grammar.dropTable_coupled hR last
  | statement => exact Grammar.statement_coupled hR last

/-- Every rule that fails does so in step, with no token but inner ones taken. -/
theorem GrammarRule.coupled (x : GrammarRule α) :
    Coupled R (fun _ _ => True) (x.rule (σ := σ)) (x.rule (σ := τ)) := by
  have hany : ∀ {y : Rule σ α} {z : Rule τ α}, Coupled R R y z →
      Coupled R (fun _ _ => True) y z := fun h => h.mono fun _ => trivial
  cases x with
  | expect k => exact expect_coupled_of hR fun _ _ => trivial
  | names => exact hany (Grammar.commaList_coupled hR (Grammar.name_coupled hR))
  | columns => exact hany (Grammar.commaList_coupled hR (Grammar.column_coupled hR))
  | values => exact hany (Grammar.commaList_coupled hR (Grammar.value_coupled hR))
  | selected => exact hany (Grammar.selected_coupled hR)
  | whereClause => exact hany (Grammar.whereClause_coupled hR)
  | column => exact hany (Grammar.column_coupled hR)
  | value => exact hany (Grammar.value_coupled hR)
  | operand => exact hany (Grammar.operand_coupled hR)
  | comparison => exact hany (Grammar.comparison_coupled hR)
  | condition => exact hany (Grammar.condition_coupled hR)
  | statement x => exact x.coupled hR fun _ _ => trivial

end

/-! ## Where a rule stops -/

/-- A rule that fails has taken inner tokens only. -/
theorem GrammarRule.ends (x : GrammarRule α) (s : σ) :
    Ends (Begun s) (fun _ => True) (x.rule.run s) :=
  (x.coupled (kept_begun s).coupling).ends (begun_self s)

/-- A statement that is read has taken inner tokens and its semicolon. -/
theorem StatementRule.ends (x : StatementRule) (s : σ) :
    Ends (Begun s) (Finished s) (x.rule.run s) :=
  (x.coupled (kept_begun s).coupling fun ⟨hst, h⟩ hk => hst ▸ h.finished hk).ends (begun_self s)

open RecordedScanner

/-- A rule that fails has taken inner tokens, and the token that it reports is next. -/
theorem GrammarRule.took_of_error (x : GrammarRule α) {s s' : Scanner} {e : SyntaxError}
    (hrun : x.rule.run s = (.error e, s')) :
    ∃ q, x.rule.run (ofScanner s) = (.error e, ⟨s', q⟩) ∧ Took s q s' ∧
      (∀ t ∈ q, t.kind.isInner = true) ∧ s'.take.1 = e.token := by
  have hends := x.ends (ofScanner s)
  have hsame : InStep _ _ (x.rule.run s) (x.rule.run (ofScanner s)) :=
    x.coupled simulation_scanner.coupling rfl
  rw [hrun] at hsame
  generalize x.rule.run (ofScanner s) = y at hsame hends ⊢
  cases hsame with
  | @error expected u v _ r hscanner hu hv =>
    cases hends with
    | error hbegun =>
      obtain ⟨q, hq, htook⟩ := hbegun
      obtain rfl : r.scanner = s' := hscanner
      obtain rfl : u = v := hu.symm.trans hv
      exact ⟨q, Prod.ext rfl (eq_mk_of_took htook), scanner_of_took htook, hq,
        (TokenSource.fst_peek _).symm.trans hu⟩

/-- A rule that reads a statement has taken inner tokens and a semicolon. -/
theorem StatementRule.took_of_ok (x : StatementRule) {s s' : Scanner} {st : Statement}
    (hrun : x.rule.run s = (.ok st, s')) :
    ∃ q t, x.rule.run (ofScanner s) = (.ok st, ⟨s', q ++ [t]⟩) ∧ Took s (q ++ [t]) s' ∧
      (∀ u ∈ q, u.kind.isInner = true) ∧ t.kind = .mark .semicolon ∧
      (∀ u ∈ q ++ [t], u.isEnd = false) ∧ s'.pending = none := by
  have hends := x.ends (ofScanner s)
  have hsame : InStep _ (fun s r => r.scanner = s) (x.rule.run s) (x.rule.run (ofScanner s)) :=
    x.coupled simulation_scanner.coupling (fun hR _ => simulation_scanner.take hR) rfl
  rw [hrun] at hsame
  generalize x.rule.run (ofScanner s) = y at hsame hends ⊢
  cases hsame with
  | @ok _ _ r hscanner =>
    obtain rfl : r.scanner = s' := hscanner
    cases hends with
    | ok hfinished =>
      obtain ⟨q, t, hq, ht, hend, htook⟩ := hfinished.exists_took
      refine ⟨q, t, Prod.ext rfl (eq_mk_of_took htook), scanner_of_took htook, hq, ht, hend, ?_⟩
      obtain ⟨r', -, -, rfl⟩ := hfinished
      exact Scanner.pending_take _

/-- **A rule that fails stops in front of the token that it refuses.** Let `s` be any scanner that
is reached on a text. If a rule fails on it, then the tokens that it took are ahead of `s` in front
of those that are still ahead, none of them is a semicolon, unknown or the end of input, and the
next token is the one that the error reports. If a statement is read, then the tokens that it took
end with their only semicolon, and no token is pending. -/
theorem rules_stop_in_front_of_refused {text : String} {s : Scanner} (h : s.Reachable text) :
    (∀ {α : Type} (x : GrammarRule α) (e : SyntaxError) (s' : Scanner),
      x.rule.run s = (.error e, s') →
      ∃ q, x.rule.run (RecordedScanner.ofScanner s) = (.error e, ⟨s', q⟩) ∧
        s.remaining = q ++ s'.remaining ∧
        (∀ t ∈ q, t.kind ≠ .mark .semicolon ∧ t.kind ≠ .endOfInput ∧ t.kind ≠ .unknown) ∧
        s'.take.1 = e.token ∧ e.diagnostic =
          ⟨e.expected.description, s'.take.1.kind, s'.take.1.text, s'.take.1.location⟩) ∧
    ∀ (x : StatementRule) (st : Statement) (s' : Scanner), x.rule.run s = (.ok st, s') →
      ∃ q t, x.rule.run (RecordedScanner.ofScanner s) = (.ok st, ⟨s', q ++ [t]⟩) ∧
        s.remaining = q ++ t :: s'.remaining ∧ t.kind = .mark .semicolon ∧
        (∀ u ∈ q, u.kind ≠ .mark .semicolon) ∧ s'.pending = none := by
  refine ⟨fun x e s' hrun => ?_, fun x st s' hrun => ?_⟩
  · obtain ⟨q, hrecord, htook, hq, htake⟩ := x.took_of_error hrun
    have hend : ∀ t ∈ q, t.isEnd = false := fun t ht => Token.isEnd_eq_false_of_isInner (hq t ht)
    refine ⟨q, hrecord, htook.remaining_eq_of_forall h hend,
      fun t ht => Kind.isInner_iff.1 (hq t ht), htake, ?_⟩
    rw [htake]
    rfl
  · obtain ⟨q, t, hrecord, htook, hq, ht, hend, hpending⟩ := x.took_of_ok hrun
    exact ⟨q, t, hrecord, (htook.remaining_eq_of_forall h hend).trans (List.append_assoc ..), ht,
      fun u hu => (Kind.isInner_iff.1 (hq u hu)).1, hpending⟩

/-- On `DELETE FROM t WHERE a;` the statement fails in front of the semicolon, which stays ahead; on
`DROP TABLE t;` it takes the semicolon. -/
theorem rules_stop_in_front_of_refused_delete_drop :
    (∃ s' q, Grammar.statement.run (Scanner.ofString "DELETE FROM t WHERE a;") =
        (.error ⟨.comparison, ⟨.mark .semicolon, ";", ⟨21, 1, 22⟩⟩⟩, s') ∧
      (Scanner.ofString "DELETE FROM t WHERE a;").remaining = q ++ s'.remaining ∧
      (∀ t ∈ q, t.kind ≠ .mark .semicolon ∧ t.kind ≠ .endOfInput ∧ t.kind ≠ .unknown) ∧
      s'.take.1 = ⟨.mark .semicolon, ";", ⟨21, 1, 22⟩⟩) ∧
    ∃ s' q t, Grammar.statement.run (Scanner.ofString "DROP TABLE t;") =
        (.ok (.dropTable "t"), s') ∧
      (Scanner.ofString "DROP TABLE t;").remaining = q ++ t :: s'.remaining ∧
      t.kind = .mark .semicolon ∧ s'.pending = none := by
  have hfail : Grammar.statement.run (Scanner.ofString "DELETE FROM t WHERE a;") =
      (.error ⟨.comparison, ⟨.mark .semicolon, ";", ⟨21, 1, 22⟩⟩⟩,
        (Grammar.statement.run (Scanner.ofString "DELETE FROM t WHERE a;")).2) :=
    Prod.ext (by rfl) rfl
  have hread : Grammar.statement.run (Scanner.ofString "DROP TABLE t;") =
      (.ok (.dropTable "t"), (Grammar.statement.run (Scanner.ofString "DROP TABLE t;")).2) :=
    Prod.ext (by rfl) rfl
  obtain ⟨q, -, hq, hinner, htake, -⟩ :=
    (rules_stop_in_front_of_refused .start).1 (.statement .statement) _ _ hfail
  obtain ⟨q', t, -, hq', ht, -, hpending⟩ :=
    (rules_stop_in_front_of_refused .start).2 .statement _ _ hread
  exact ⟨⟨_, q, hfail, hq, hinner, htake⟩, _, q', t, hread, hq', ht, hpending⟩

end SqlScript
