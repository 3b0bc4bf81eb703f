import SqlScript.Proofs.Cutting

/-!
# Scripts one behind another

If the last token of a text is a semicolon, or the text has no token at all, any other text may
stand behind it: the text can be cut off there (`cut_of_getLast?`), and nothing behind a semicolon
matters to the statements in front of it (`Tape.attempts_append`). So the two scripts are read as if
each stood alone, and only the positions in the errors of the second one change
(`parseScript_append`).
-/

namespace SqlScript

open Lexeme

/-- Behind a semicolon a text can be cut off, and also if it has no token. -/
theorem cut_of_getLast? {l : Location} {a : List Char}
    (h : ∀ t ∈ (tokens l a).dropLast.getLast?, t.kind = .mark .semicolon) (b : List Char) :
    Cut a b := by
  induction a using lexeme_induction generalizing l with
  | blank a ha => exact .blank ha
  | lexeme gap c r hgap hc ih =>
    rw [tokens_append_of_isBlank hgap, tokens_cons_of_not_isBlank hc,
      List.dropLast_cons_of_ne_nil (tokens_ne_nil _ _)] at h
    have hrest := @ih ((l.after gap).after (first c r).chars)
    rcases hts : (tokens ((l.after gap).after (first c r).chars) (first c r).rest).dropLast with
      _ | ⟨t, ts⟩
    · -- the last token is a semicolon, and a semicolon is one whatever is behind it
      rw [hts] at h
      obtain rfl := eq_char_of_kind_eq_mark (h _ rfl)
      refine .lexeme hgap hc ?_ (hrest (by simp [hts]))
      rw [first_char, first_char]
      rfl
    · refine .lexeme hgap hc (stays_first c r b fun hnil => ?_) (hrest ?_)
      · rw [hnil, tokens_of_isBlank (by simp)] at hts
        cases hts
      · rw [hts] at h ⊢
        rwa [List.getLast?_cons_cons] at h

/-! ## Tapes one behind another -/

/-- What is behind a semicolon is read alone. -/
theorem Tape.attempts_append {ts us : List Token} {segs : List (List Token)}
    (h : Segmented ts segs) (hlast : ∀ t ∈ ts.getLast?, t.kind = .mark .semicolon)
    (hts : ∀ t ∈ ts, t.isEnd = false) (hus : ∀ t ∈ us, t.isEnd = false) (l l' : Location) :
    (attempts (⟨ts ++ us, l⟩ : Tape)).1 =
      (attempts (⟨ts, l'⟩ : Tape)).1 ++ (attempts (⟨us, l⟩ : Tape)).1 := by
  induction h with
  | nil =>
    have hnil : attempts (⟨[], l'⟩ : Tape) = ([], ⟨[], l'⟩) := attempts_of_isEnd rfl
    rw [hnil]
    rfl
  | @last q hne hq =>
    have hmem := List.getLast_mem hne
    have hk : (q.getLast hne).kind ≠ .mark .semicolon := by
      simpa using List.all_eq_true.1 hq _ hmem
    exact absurd (hlast _ (List.getLast?_eq_some_getLast hne)) hk
  | @cons q e r segs hq he h ih =>
    have hqe := isPlain_of_isOpen hq fun t ht => hts t (by simp [ht])
    have hboth : ∀ t ∈ q ++ e :: r ++ us, t.isEnd = false := fun t ht =>
      (List.mem_append.1 ht).elim (hts t) (hus t)
    have hr : ∀ t ∈ r.getLast?, t.kind = .mark .semicolon := fun t ht =>
      hlast t (by
        obtain ⟨u, r, rfl⟩ := List.exists_cons_of_ne_nil (l := r) (by rintro rfl; cases ht)
        simpa using ht)
    rw [attempts_of_ne_nil (by simp) hboth, attempts_of_ne_nil (by simp) hts,
      attempt_terminated hqe he r [] l' l', List.append_assoc, List.cons_append,
      attempt_terminated hqe he (r ++ us) [] l l', ih hr fun t ht => hts t (by simp [ht])]
    rfl

/-! ## Scripts one behind another -/

/-- A script is read as the tape of its text. -/
theorem parseScript_eq_ofAttempts (text : String) :
    parseScript text = .ofAttempts (attempts (tapeOf text)).1 := by
  have hparse := Scanner.simulation_readsAs.parse (Scanner.readsAs_tapeOf text)
  rw [Outcome.relocate_id] at hparse
  exact hparse.symm

/-- Read elsewhere, it has the same statements, and its errors elsewhere. -/
theorem ofAttempts_relocate_tapeOf (f : Location → Location) (text : String) :
    Outcome.ofAttempts (attempts ((tapeOf text).relocate f)).1 = (parseScript text).relocate f := by
  rw [((Tape.simulation_relocate f).attempts rfl).1, Outcome.ofAttempts_map_relocate,
    parseScript_eq_ofAttempts]

theorem Cut.properTokens_append {a b : String} (h : Cut a.toList b.toList) :
    properTokens (a ++ b) =
      properTokens a ++ (properTokens b).map (Token.relocate (Location.behind a)) := by
  have htokens := h.tokens_toList_append
  rw [(tokens_eq_properTokens_append (a ++ b)).1, (tokens_eq_properTokens_append b).1,
    List.map_append, ← List.append_assoc] at htokens
  exact (List.append_inj' htokens rfl).1

/-- At a cut the tape of the text in front is followed by the tape of the text behind. -/
theorem Cut.tapeOf_append {a b : String} (h : Cut a.toList b.toList) :
    tapeOf (a ++ b) = ⟨properTokens a ++ ((tapeOf b).relocate (Location.behind a)).upcoming,
      ((tapeOf b).relocate (Location.behind a)).finish⟩ := by
  have hfinish : Location.start.after (a ++ b).toList =
      (Location.start.after b.toList).behind a := by
    rw [String.toList_append, Location.after_append, ← Location.behind_start,
      ← (Location.carries_behind a).after (Nat.le_refl 1)]
  rw [tapeOf, h.properTokens_append, hfinish]
  rfl

theorem Outcome.ofAttempts_append (as as' : List Attempt) :
    ofAttempts (as ++ as') = ⟨⟨(ofAttempts as).script.statements ++
      (ofAttempts as').script.statements⟩, (ofAttempts as).errors ++ (ofAttempts as').errors⟩ := by
  simp only [ofAttempts, List.filterMap_append]

/-- The report of a failure elsewhere says the same, but for the position. -/
theorem SyntaxError.diagnostic_relocate (f : Location → Location) (e : SyntaxError) :
    (e.relocate f).diagnostic = { e.diagnostic with location := f e.diagnostic.location } := rfl

/-- **Scripts can stand one behind another.** If the last token of `a` is a semicolon, or there is
none, then the text `a ++ b` has the statements of `a` and behind them those of `b`, and likewise
the errors, where the positions in those of `b` are the places behind `a`. -/
theorem parseScript_append {a b : String}
    (h : ∀ t ∈ (properTokens a).getLast?, t.kind = .mark .semicolon) :
    (parseScript (a ++ b)).script.statements =
        (parseScript a).script.statements ++ (parseScript b).script.statements ∧
      (parseScript (a ++ b)).errors = (parseScript a).errors ++
        (parseScript b).errors.map (SyntaxError.relocate (Location.behind a)) ∧
      (parseScript (a ++ b)).diagnostics = (parseScript a).diagnostics ++
        (parseScript b).errors.map fun e =>
          Diagnostic.message
            { e.diagnostic with location := e.diagnostic.location.behind a } := by
  have hcut : Cut a.toList b.toList := cut_of_getLast? (l := .start) (by
    rwa [(tokens_eq_properTokens_append a).1, List.dropLast_concat]) _
  have hproper : ∀ t ∈ properTokens a, t.isEnd = false := fun t =>
    isEnd_eq_false_of_mem_properTokens
  have hbehind : ∀ t ∈ ((tapeOf b).relocate (Location.behind a)).upcoming, t.isEnd = false := by
    intro t ht
    obtain ⟨u, hu, rfl⟩ := List.mem_map.1 ht
    rw [Token.isEnd_relocate]
    exact @isEnd_eq_false_of_mem_properTokens b u hu
  have hattempts := Tape.attempts_append (segmented_segments _) h hproper hbehind
    ((tapeOf b).relocate (Location.behind a)).finish (tapeOf a).finish
  have houtcome : parseScript (a ++ b) = .ofAttempts ((attempts (tapeOf a)).1 ++
      (attempts ((tapeOf b).relocate (Location.behind a))).1) := by
    rw [parseScript_eq_ofAttempts, hcut.tapeOf_append]
    exact congrArg Outcome.ofAttempts hattempts
  rw [houtcome, Outcome.ofAttempts_append, ofAttempts_relocate_tapeOf, ← parseScript_eq_ofAttempts]
  refine ⟨rfl, rfl, ?_⟩
  simp only [Outcome.diagnostics, Outcome.relocate, List.map_append, List.map_map,
    Function.comp_def, SyntaxError.message, SyntaxError.diagnostic_relocate]

/-- Two broken scripts, the second of which starts in the line where the first ends. -/
theorem parseScript_append_select_drop :
    (parseScript ("DROP;\nSELECT a FROM t; SELECT é;" ++ " DROP TABLE u; DROP 1;\nDROP")).script =
        ⟨[.select ["a"] "t" none, .dropTable "u"]⟩ ∧
      (parseScript
          ("DROP;\nSELECT a FROM t; SELECT é;" ++ " DROP TABLE u; DROP 1;\nDROP")).diagnostics =
        ["Expected KwTable, got Semicolon ';' 1:5", "Expected Id, got Unknown 'é' 2:25",
          "Expected KwTable, got Int '1' 2:47", "Expected KwTable, got Eof '<EOF>' 3:5"] := by
  obtain ⟨hscript, -, hdiagnostics⟩ :=
    @parseScript_append "DROP;\nSELECT a FROM t; SELECT é;" " DROP TABLE u; DROP 1;\nDROP"
      (by decide +kernel)
  refine ⟨?_, ?_⟩
  · exact (congrArg Script.mk hscript).trans (by decide +kernel)
  · rw [hdiagnostics]
    decide +kernel

end SqlScript
