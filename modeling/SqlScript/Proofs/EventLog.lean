import SqlScript.Proofs.Cutting
import SqlScript.Proofs.Taken

/-!
# The log of a script

A token is scanned when it is first looked at, which may be in front of a statement, in a rule, or
while tokens are skipped. But the events so far and the events that the text behind the scanner will
cause stay the same together (`LoggedScanner.told`), whatever is looked at or taken: a scan only
moves the event of a token from the second part to the first. No token is pending behind an
attempt, so there the first part comes from the tokens used up, and this fixes the log of a whole
reading (`Reading.events_attempts`).

What an attempt reports about its segment is found on the tape of the segment: a statement takes
inner tokens and its semicolon (`Grammar.statement_ends`), and what is skipped after an error starts
with the token that the error names (`Tape.attempt_accountsFor`).
-/

namespace SqlScript

open TokenSource

/-! ## What an attempt reports about its segment -/

/-- Behind its semicolon a segment has no more tokens. -/
theorem IsSegment.eq_nil {q r : List Token} {e : Token} (h : IsSegment (q ++ e :: r))
    (he : e.kind = .mark .semicolon) : r = [] := by
  rcases h with hopen | ⟨p, e', heq, hopen, -⟩
  · simp [isOpen, he] at hopen
  · rcases List.eq_nil_or_concat' r with rfl | ⟨r, e'', rfl⟩
    · rfl
    · rw [← List.cons_append, ← List.append_assoc] at heq
      obtain ⟨rfl, -⟩ := List.append_inj' heq rfl
      simp [isOpen, he] at hopen

/-- What is left of a segment is skipped to its end. -/
theorem IsSegment.skip {q r : List Token} (h : IsSegment (q ++ r))
    (hq : ∀ t ∈ q, t.kind.isInner = true) (hend : ∀ t ∈ q ++ r, t.isEnd = false) (l : Location) :
    (SqlScript.skip (⟨r, l⟩ : Tape)).1 = r.length := by
  rcases h with hopen | ⟨p, e, heq, hopen, he⟩
  · have hr : Tape.IsPlain r := fun t ht =>
      Tape.isPlain_of_isOpen hopen hend t (List.mem_append_right q ht)
    rw [SqlScript.skip, Tape.skipFrom_isPlain hr, Nat.zero_add]
  · rcases List.eq_nil_or_concat' r with rfl | ⟨r, e', rfl⟩
    · -- the semicolon would be one of the inner tokens
      rw [List.append_nil] at heq
      exact absurd he (Kind.isInner_iff.1 (hq e (by simp [heq]))).1
    · rw [← List.append_assoc] at heq hend
      obtain ⟨rfl, h⟩ := List.append_inj' heq rfl
      obtain rfl := List.singleton_inj.1 h
      have hr : Tape.IsPlain r := fun t ht =>
        Tape.isPlain_of_isOpen hopen (fun u hu => hend u (List.mem_append_left _ hu)) t
          (List.mem_append_right q ht)
      rw [SqlScript.skip, Tape.skipFrom_terminated hr he, List.length_append, Nat.zero_add]
      rfl

/-- What an attempt says about the tokens of its segment, in front of `behind`: if it was read then
none is unknown, and if it was given up then those from the one that the error names on were
skipped. -/
def Attempt.AccountsFor (seg : List Token) (behind : Token) : Attempt → Prop
  | parsed _ => ∀ t ∈ seg, t.kind ≠ .unknown
  | recovered e n => ∃ q r, seg = q ++ r ∧ e.token = r.headD behind ∧ n = r.length ∧
      (n = 0 ↔ e.token.kind = .endOfInput)

/-- **An attempt accounts for its segment.** -/
theorem Tape.attempt_accountsFor {seg : List Token} (h : IsSegment seg)
    (hend : ∀ t ∈ seg, t.isEnd = false) (l : Location) :
    (attempt (⟨seg, l⟩ : Tape)).1.AccountsFor seg (.endOfInput l) := by
  have hrun := Grammar.statement_ends (⟨seg, l⟩ : Tape)
  unfold attempt
  generalize Grammar.statement.run (⟨seg, l⟩ : Tape) = x at hrun
  cases hrun with
  | @ok st t hfinished =>
    obtain ⟨q, e, hq, he, heq⟩ := hfinished.exists_eq_tape
    obtain rfl : seg = q ++ e :: t.upcoming := congrArg upcoming heq
    have hnil : t.upcoming = [] := h.eq_nil he
    rw [hnil]
    simp only [Attempt.report, Attempt.AccountsFor, List.forall_mem_append,
      List.forall_mem_singleton]
    exact ⟨fun t ht => (Kind.isInner_iff.1 (hq t ht)).2.2, by simp [he]⟩
  | @error e t hbegun he =>
    obtain ⟨q, hq, heq⟩ := hbegun.exists_eq_tape
    obtain ⟨r, l⟩ := t
    obtain ⟨rfl, rfl⟩ := Tape.mk.inj heq
    refine ⟨q, r, rfl, ?_, h.skip hq hend _, ?_⟩
    · rw [← he]
      cases r <;> rfl
    · simp only [h.skip hq hend, ← he]
      rcases r with _ | ⟨u, r⟩
      · exact iff_of_true rfl rfl
      · have hu : u.kind ≠ .endOfInput := by simpa [Token.isEnd] using hend u (by simp)
        exact iff_of_false (by simp) hu

/-! ## The potential of a log -/

/-- The events that tokens cause when they are scanned: one for each unknown one. -/
def unknownEvents (ts : List Token) : List Event :=
  (ts.filter (fun t => t.kind = .unknown)).map .unknownToken

theorem unknownEvents_append (ts us : List Token) :
    unknownEvents (ts ++ us) = unknownEvents ts ++ unknownEvents us := by
  simp [unknownEvents]

theorem unknownEvents_of_isEnd {t : Token} (h : t.isEnd = true) : unknownEvents [t] = [] := by
  have hk : t.kind = .endOfInput := by simpa [Token.isEnd] using h
  simp [unknownEvents, hk]

/-- A scan divides the events of a text. -/
theorem unknownEvents_tokens (l : Location) (cs : List Char) :
    unknownEvents (tokens l cs) = unknownEvents [(scan l cs).token] ++
      unknownEvents (tokens (scan l cs).location (scan l cs).rest) := by
  cases h : (scan l cs).token.isEnd with
  | true =>
    have hrest : (scan l cs).rest = [] := congrArg Scan.rest (scan_of_isEnd h)
    rw [tokens, if_pos h, unknownEvents_of_isEnd h, hrest, tokens_of_isBlank (by simp),
      unknownEvents_of_isEnd rfl]
    rfl
  | false =>
    rw [tokens, if_neg (by simp [h]), ← unknownEvents_append]
    rfl

namespace LoggedScanner

/-- The events so far, and those of the text that has not been scanned. -/
def told (s : LoggedScanner) : List Event :=
  s.events ++ unknownEvents (tokens s.scanner.location s.scanner.rest)

/-- Taking a token causes no event but those that were due. -/
theorem told_take (s : LoggedScanner) : s.take.2.told = s.told := by
  obtain ⟨⟨rest, l, _ | t, exhausted⟩, log⟩ := s
  · simp only [told, take, events, logNext, Scanner.take, Option.isNone_none, Bool.true_and]
    rw [unknownEvents_tokens l rest, ← List.append_assoc]
    congr 1
    by_cases hk : (scan l rest).token.kind = .unknown <;> simp [unknownEvents, hk]
  · rfl

theorem told_peek (s : LoggedScanner) : s.peek.2.told = s.told := by
  obtain ⟨⟨rest, l, _ | t, exhausted⟩, log⟩ := s
  · exact told_take ⟨⟨rest, l, none, exhausted⟩, log⟩
  · rfl

/-- A look at the end of input causes no event. -/
theorem events_peek_of_isEnd {s : LoggedScanner} (h : s.peek.1.isEnd = true) :
    s.peek.2.events = s.events := by
  have hk : s.peek.1.kind = .endOfInput := by simpa [Token.isEnd] using h
  have hlog : s.logNext s.peek.1 = s.log := by simp [logNext, hk]
  exact congrArg List.reverse hlog

theorem pending_take (s : LoggedScanner) : s.take.2.scanner.pending = none := by
  obtain ⟨⟨rest, l, _ | t, exhausted⟩, log⟩ := s <;> rfl

theorem told_of_pending_none {s : LoggedScanner} (h : s.scanner.pending = none) :
    s.told = s.events ++ unknownEvents s.scanner.remaining := by
  rw [told, Scanner.remaining_of_pending_none h]

theorem events_note (e : Event) (s : LoggedScanner) : (note e s).events = s.events ++ [e] :=
  List.reverse_cons

theorem skipFrom_told (n : Nat) (s : LoggedScanner) :
    (skipFrom n s).2.told = s.told ∧ (skipFrom n s).2.scanner.pending = none := by
  fun_induction skipFrom n s with
  | case1 n s r h => exact ⟨s.told_take, s.pending_take⟩
  | case2 n s r h hs => exact ⟨s.told_take, s.pending_take⟩
  | case3 n s r h hs ih => exact ⟨ih.1.trans s.told_take, ih.2⟩

/-- **An attempt causes the events that were due and reports itself**, with no token pending. -/
theorem exists_attempt_eq_note (s : LoggedScanner) : ∃ s' : LoggedScanner,
    (attempt s).2 = note (attempt s).1.event s' ∧ s'.told = s.told ∧
      s'.scanner.pending = none := by
  have hkept : Kept fun t : LoggedScanner => t.told = s.told :=
    ⟨fun h => (told_peek _).trans h, fun h _ => (told_take _).trans h⟩
  have hrun := hkept.statement_ends
    (Q := fun t : LoggedScanner => t.told = s.told ∧ t.scanner.pending = none)
    (fun h _ => ⟨(told_take _).trans h, pending_take _⟩) rfl
  unfold attempt
  generalize Grammar.statement.run s = x at hrun
  cases hrun with
  | @ok st t h => exact ⟨t, rfl, h.1, h.2⟩
  | @error e t h _ =>
    obtain ⟨htold, hpending⟩ := skipFrom_told 0 t
    exact ⟨(skip t).2, rfl, htold.trans h, hpending⟩

/-- A log changes nothing about reading. -/
theorem simulation_scanner :
    Simulation id (fun (s : Scanner) (t : LoggedScanner) => t.scanner = s) where
  fst_peek := by
    rintro _ t rfl
    rfl
  peek := by
    rintro _ t rfl
    rfl
  take := by
    rintro _ t rfl
    rfl
  note := by
    rintro _ t _ _ rfl
    rfl

end LoggedScanner

/-! ## The log of a script -/

/-- **The log of a reading**: for each attempt the events of the tokens that it uses up and then its
own. -/
theorem Reading.events_attempts {s s' : Scanner} {run : List (List Token × Attempt)}
    (h : Reading s run s') {t : LoggedScanner} (ht : t.scanner = s) (hs : s.pending = none) :
    (attempts t).2.events =
      t.events ++ run.flatMap fun x => unknownEvents x.1 ++ [x.2.event] := by
  induction h generalizing t with
  | @done s h =>
    subst ht
    rw [attempts_of_isEnd (s := t) h]
    change t.peek.2.events = _
    rw [LoggedScanner.events_peek_of_isEnd h, List.flatMap_nil, List.append_nil]
  | @attempt s p run s' h consumed rest ih =>
    subst ht
    obtain ⟨ha, hscanner⟩ := LoggedScanner.simulation_scanner.attempt
      (s := t.scanner.peek.2) (t := (TokenSource.peek t).2) rfl
    rw [Attempt.relocate_id, id_eq] at ha
    obtain ⟨u, hnote, htold, hu⟩ := LoggedScanner.exists_attempt_eq_note (TokenSource.peek t).2
    have hu' : u.scanner = (SqlScript.attempt t.scanner.peek.2).2 := by
      rw [← hscanner, hnote]
      rfl
    -- what was due and is not any more comes from the tokens used up
    have hevents : u.events = t.events ++ unknownEvents p := by
      have htotal := htold.trans t.told_peek
      rw [LoggedScanner.told_of_pending_none hu, LoggedScanner.told_of_pending_none hs, consumed,
        unknownEvents_append, hu', ← List.append_assoc] at htotal
      exact List.append_cancel_right htotal
    rw [attempts_of_not_isEnd (s := t) h, ih hscanner (hu' ▸ hu), hnote, LoggedScanner.events_note,
      hevents, ha, List.flatMap_cons]
    simp only [List.append_assoc]

/-- The log of a script is that of its reading, and the totals. -/
theorem Reading.scriptEvents_eq {text : String} {run : List (List Token × Attempt)} {s' : Scanner}
    (h : Reading (.ofString text) run s') :
    scriptEvents text = (run.flatMap fun x => unknownEvents x.1 ++ [x.2.event]) ++
      [.parsedScript (parseScript text).script.length (parseScript text).errors.length] := by
  have hlogged : (parse (LoggedScanner.ofString text)).1 = parseScript text := by
    rw [LoggedScanner.simulation_scanner.parse (s := .ofString text) rfl, Outcome.relocate_id]
    rfl
  have hevents := h.events_attempts (t := .ofString text) rfl rfl
  rw [← hlogged]
  exact (LoggedScanner.events_note _ _).trans (congrArg (· ++ _) hevents)

/-- The records of the events that tokens cause. -/
theorem map_record_unknownEvents (ts : List Token) : (unknownEvents ts).map Event.record =
    (ts.filter fun t => t.kind = .unknown).map fun t =>
      ⟨.trace, "unknown token", [("text", .text t.text), ("location", .text t.location.display)]⟩ :=
  List.map_map

/-- **The log of a script is settled by its segments.** There is one attempt for each segment, in
order. The log has for each of them the unknown tokens of the segment, in order, then the statement
that was read or the error with the number of tokens skipped, and at the end the totals. A segment
that was read has no unknown token. If it was given up, the tokens skipped are those from the one
that the error names up to the end of the segment; there are none only if that one is the end of
input. The records of the log name the texts and the places of the unknown tokens, and the
statements and errors in words. -/
theorem exists_reading_events (text : String) :
    ∃ run s', Reading (.ofString text) run s' ∧ s'.take.1.isEnd = true ∧
      run.map Prod.fst = segments (properTokens text) ∧
      parseScript text = .ofAttempts (run.map Prod.snd) ∧
      Contribute (run.map Prod.snd) (parseScript text).script.statements
        (parseScript text).errors ∧
      scriptEvents text =
        (run.flatMap fun x =>
          (x.1.filter fun t => t.kind = .unknown).map .unknownToken ++
          [match x.2 with
            | .parsed st => .parsedStatement st
            | .recovered e n => .recovered e n]) ++
        [.parsedScript (parseScript text).script.length (parseScript text).errors.length] ∧
      (scriptEvents text).map Event.record =
        (run.flatMap fun x =>
          ((x.1.filter fun t => t.kind = .unknown).map fun t =>
            ⟨.trace, "unknown token",
              [("text", .text t.text), ("location", .text t.location.display)]⟩) ++
          [match x.2 with
            | .parsed st => ⟨.trace, "parsed statement", [("statement", .text st.render)]⟩
            | .recovered e n => ⟨.debug, "recovered from syntax error",
                [("error", .text e.message), ("skipped", .number n)]⟩]) ++
        [⟨.debug, "parsed script", [("statements", .number (parseScript text).script.length),
          ("errors", .number (parseScript text).errors.length)]⟩] ∧
      ∀ x ∈ run, x.2.AccountsFor x.1 (.endOfInput (Location.start.after text.toList)) := by
  obtain ⟨l, run, s', hrun, hs', hremaining, hfst, hat⟩ := exists_reading_tape text
  obtain ⟨hp, hcontribute⟩ := hrun.contribute
  have hevents := hrun.scriptEvents_eq
  refine ⟨run, s', hrun, hs', hfst, hp, hcontribute, hevents, ?_, fun x hx => ?_⟩
  · rw [hevents, List.map_append, List.map_flatMap]
    congr 2
    funext x
    rw [List.map_append, map_record_unknownEvents]
    rcases x with ⟨seg, st | ⟨e, n⟩⟩ <;> rfl
  · obtain ⟨hseg, hmem, ha⟩ := hat x hx
    have hl : l = Location.start.after text.toList := by
      have htokens := (tokens_eq_properTokens_append text).1
      rw [← drain_eq_tokens] at htokens
      have hlast := List.append_cancel_left (hremaining.symm.trans htokens)
      exact congrArg Token.location (List.singleton_inj.1 hlast)
    rw [ha, hl]
    exact Tape.attempt_accountsFor hseg
      (fun t ht => isEnd_eq_false_of_mem_properTokens (hmem t ht)) _

end SqlScript
