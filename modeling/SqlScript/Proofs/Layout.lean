import SqlScript.Proofs.Concatenation
import SqlScript.Proofs.EventLog

/-!
# Layout does not matter

Two tokens are the same word if they have the same kind and the same text, wherever they stand
(`Token.SameWord`). No two tokens of a text stand at the same place, so if two texts have the same
words, the tape of one of them is that of the other with its tokens elsewhere
(`exists_tapeOf_eq_relocate`), and both are read in step.

An error names a token of its text, or the end of it. So the places show in the errors only, and
there as the places of the tokens with the same index (`exists_readings_of_sameWord`).
-/

namespace SqlScript

/-! ## The same words elsewhere -/

/-- The tokens have the same kind and the same text, wherever they stand. -/
structure Token.SameWord (t u : Token) : Prop where
  kind_eq : t.kind = u.kind
  text_eq : t.text = u.text

instance (t u : Token) : Decidable (t.SameWord u) :=
  decidable_of_iff (t.kind = u.kind ∧ t.text = u.text)
    ⟨fun h => ⟨h.1, h.2⟩, fun h => ⟨h.kind_eq, h.text_eq⟩⟩

theorem Token.SameWord.relocate_eq {t u : Token} (h : t.SameWord u) {f : Location → Location}
    (hf : f t.location = u.location) : t.relocate f = u := by
  obtain ⟨k, w, l⟩ := u
  obtain ⟨rfl, rfl⟩ := h
  exact congrArg (Token.mk t.kind t.text) hf

theorem forall₂_sameWord_relocate (f : Location → Location) (ts : List Token) :
    List.Forall₂ Token.SameWord ts (ts.map (Token.relocate f)) := by
  rw [List.forall₂_map_right_iff, List.forall₂_same]
  exact fun t _ => ⟨rfl, rfl⟩

/-- The same words differ by a relocation, if no two of the first ones stand at one place. -/
theorem exists_eq_map_relocate {ts us : List Token} (h : List.Forall₂ Token.SameWord ts us)
    (hts : ts.Pairwise fun t u => t.location ≠ u.location) :
    ∃ f, us = ts.map (Token.relocate f) := by
  induction h with
  | nil => exact ⟨id, rfl⟩
  | @cons t u ts us htu h ih =>
    obtain ⟨hfirst, hrest⟩ := List.pairwise_cons.1 hts
    obtain ⟨f, rfl⟩ := ih hrest
    refine ⟨Function.update f t.location u.location, ?_⟩
    rw [List.map_cons, htu.relocate_eq (Function.update_self ..)]
    congr 1
    refine List.map_congr_left fun v hv => ?_
    simp only [Token.relocate, Function.update_of_ne (hfirst v hv).symm]

/-- Each token of a text stands at a place of its own, and so does the end of input. -/
theorem pairwise_location_tokens (text : String) :
    (tokens .start text.toList).Pairwise fun t u => t.location ≠ u.location := by
  obtain ⟨ps, last, h, htokens⟩ := exists_tiles_tokens [] text.toList
  have hpiece : ∀ t ∈ ps.map Prod.snd, t.IsPieceOf text := by
    simpa only [List.nil_append, String.ofList_toList] using h.isPieceOf
  have hne : ∀ {t : Token} {l : Location}, 0 < t.text.utf8ByteSize →
      t.location.offset + t.text.utf8ByteSize ≤ l.offset → t.location ≠ l := by
    rintro t _ hpos hle rfl
    omega
  have hstart : tokens .start text.toList = _ := htokens
  rw [hstart, List.pairwise_append]
  refine ⟨h.pairwise_offset.2.imp_of_mem fun ht _ hle => hne (hpiece _ ht).size_pos hle,
    List.pairwise_singleton _ _, fun t ht u hu => ?_⟩
  obtain rfl := List.mem_singleton.1 hu
  refine hne (hpiece t ht).size_pos ?_
  exact (Location.offset_after_start text).symm ▸ (hpiece t ht).stop_le

/-- **Texts with the same words are the same tape elsewhere.** -/
theorem exists_tapeOf_eq_relocate {a b : String}
    (h : List.Forall₂ Token.SameWord (tokens .start a.toList) (tokens .start b.toList)) :
    ∃ f, tapeOf b = (tapeOf a).relocate f ∧
      tokens .start b.toList = (tokens .start a.toList).map (Token.relocate f) := by
  obtain ⟨f, hf⟩ := exists_eq_map_relocate h (pairwise_location_tokens a)
  refine ⟨f, ?_, hf⟩
  rw [(tokens_eq_properTokens_append a).1, (tokens_eq_properTokens_append b).1,
    List.map_append] at hf
  obtain ⟨hproper, hend⟩ := List.append_inj' hf rfl
  have hfinish : Location.start.after b.toList = f (Location.start.after a.toList) :=
    congrArg Token.location (List.singleton_inj.1 hend)
  rw [tapeOf, hproper, hfinish]
  rfl

/-! ## Segments and errors elsewhere -/

theorem segments_map_relocate (f : Location → Location) (ts : List Token) :
    segments (ts.map (Token.relocate f)) = (segments ts).map (List.map (Token.relocate f)) := by
  induction ts with
  | nil => rfl
  | cons t ts ih =>
    rw [List.map_cons, segments, segments, Token.kind_relocate, ih]
    split
    · rfl
    · cases segments ts <;> rfl

/-- An error names a token of its segment, or the end of input behind it. -/
theorem Tape.token_mem_of_attempt {seg : List Token} (h : IsSegment seg)
    (hend : ∀ t ∈ seg, t.isEnd = false) {l : Location} {e : SyntaxError} {n : Nat}
    (he : (attempt (⟨seg, l⟩ : Tape)).1 = .recovered e n) : e.token ∈ seg ++ [.endOfInput l] := by
  have haccount := attempt_accountsFor h hend l
  rw [he] at haccount
  obtain ⟨q, r, rfl, htoken, -⟩ := haccount
  rw [htoken]
  cases r <;> simp

/-- Two failures that say the same of the tokens with one index, each of its own list: the reports
differ only in where these tokens stand. -/
structure SyntaxError.Matches (ts us : List Token) (e e' : SyntaxError) : Prop where
  expected_eq : e'.expected = e.expected
  diagnostic_eq : e'.diagnostic = { e.diagnostic with location := e'.token.location }
  exists_index : ∃ i : Nat, ts[i]? = some e.token ∧ us[i]? = some e'.token

/-- Two attempts that both give the same statement, or fail alike and skip as many tokens. -/
inductive Attempt.Matches (ts us : List Token) : Attempt → Attempt → Prop
  | parsed (st : Statement) : Matches ts us (.parsed st) (.parsed st)
  | recovered {e e' : SyntaxError} (n : Nat) (h : e.Matches ts us e') :
      Matches ts us (.recovered e n) (.recovered e' n)

theorem SyntaxError.matches_relocate (f : Location → Location) {ts : List Token} {e : SyntaxError}
    (h : e.token ∈ ts) : e.Matches ts (ts.map (Token.relocate f)) (e.relocate f) where
  expected_eq := rfl
  diagnostic_eq := rfl
  exists_index := by
    obtain ⟨i, hi⟩ := List.getElem?_of_mem h
    refine ⟨i, hi, ?_⟩
    rw [List.getElem?_map, hi]
    rfl

theorem Attempt.matches_relocate (f : Location → Location) {ts : List Token} {a : Attempt}
    (h : ∀ e n, a = .recovered e n → e.token ∈ ts) :
    a.Matches ts (ts.map (Token.relocate f)) (a.relocate f) := by
  cases a with
  | parsed st => exact .parsed st
  | recovered e n => exact .recovered n (SyntaxError.matches_relocate f (h e n rfl))

/-! ## Scripts elsewhere -/

/-- The attempts at a script, listed with the segments that they use up. -/
def attemptList (text : String) : List (List Token × Attempt) :=
  (segments (properTokens text)).map fun seg =>
    (seg, (attempt (⟨seg, Location.start.after text.toList⟩ : Tape)).1)

theorem exists_reading_attemptList (text : String) :
    ∃ s, Reading (.ofString text) (attemptList text) s ∧ s.take.1.isEnd = true ∧
      parseScript text = .ofAttempts ((attemptList text).map Prod.snd) := by
  obtain ⟨s, hs, hrun⟩ :=
    (Scanner.readsAs_tapeOf text).exists_reading (segmented_segments (properTokens text))
  refine ⟨s, hrun, ?_, ?_⟩
  · rw [hs.fst_take]
    rfl
  · exact hrun.contribute.1

theorem token_mem_of_mem_attemptList {text : String} {x : List Token × Attempt}
    (hx : x ∈ attemptList text) {e : SyntaxError} {n : Nat} (he : x.2 = .recovered e n) :
    e.token ∈ tokens .start text.toList := by
  have hsegmented := segmented_segments (properTokens text)
  obtain ⟨seg, hseg, rfl⟩ := List.mem_map.1 hx
  have hmem := Tape.token_mem_of_attempt (hsegmented.isSegment_of_mem hseg)
    (fun t ht => isEnd_eq_false_of_mem_properTokens (hsegmented.mem_of_mem hseg ht)) he
  rw [(tokens_eq_properTokens_append text).1, List.mem_append]
  exact (List.mem_append.1 hmem).imp_left (hsegmented.mem_of_mem hseg)

/-- The attempts at a tape elsewhere are the same attempts elsewhere. -/
theorem attemptList_of_relocate {f : Location → Location} {a b : String}
    (h : tapeOf b = (tapeOf a).relocate f) : attemptList b =
      (attemptList a).map (Prod.map (List.map (Token.relocate f)) (Attempt.relocate f)) := by
  obtain ⟨hproper, hfinish⟩ := Tape.mk.inj h
  have hattempt : ∀ (seg : List Token) (l : Location),
      (attempt (⟨seg.map (Token.relocate f), f l⟩ : Tape)).1 =
        (attempt (⟨seg, l⟩ : Tape)).1.relocate f := fun seg l =>
    ((Tape.simulation_relocate f).attempt (s := ⟨seg, l⟩) rfl).1
  have hsegments := segments_map_relocate f (properTokens a)
  rw [attemptList, attemptList, hproper, hfinish]
  simp only [tapeOf] at *
  rw [hsegments, List.map_map, List.map_map]
  simp only [Function.comp_def, hattempt, Prod.map]

/-- **Layout does not influence how a script is read.** Let the tokens of two texts agree one by one
in kind and text. Then the two scripts have the same statements, and as many errors, which match one
by one: they name the tokens with the same index in either text and say the same of them, but for
the place. In detail, the segments of the two texts have the same words, and the attempts at them
match: both give the same statement, or they fail alike. -/
theorem exists_readings_of_sameWord {a b : String}
    (h : List.Forall₂ Token.SameWord (Scanner.ofString a).drain.1 (Scanner.ofString b).drain.1) :
    (parseScript a).script = (parseScript b).script ∧
    List.Forall₂ (SyntaxError.Matches (Scanner.ofString a).drain.1 (Scanner.ofString b).drain.1)
      (parseScript a).errors (parseScript b).errors ∧
    ∃ run run' s s', Reading (.ofString a) run s ∧ s.take.1.isEnd = true ∧
      Reading (.ofString b) run' s' ∧ s'.take.1.isEnd = true ∧
      parseScript a = .ofAttempts (run.map Prod.snd) ∧
      parseScript b = .ofAttempts (run'.map Prod.snd) ∧
      run.map Prod.fst = segments (properTokens a) ∧
      run'.map Prod.fst = segments (properTokens b) ∧
      List.Forall₂ (fun x y => List.Forall₂ Token.SameWord x.1 y.1 ∧
        x.2.Matches (Scanner.ofString a).drain.1 (Scanner.ofString b).drain.1 y.2) run run' := by
  rw [drain_eq_tokens, drain_eq_tokens] at h ⊢
  obtain ⟨f, htape, htokens⟩ := exists_tapeOf_eq_relocate h
  obtain ⟨s, hread, hs, ha⟩ := exists_reading_attemptList a
  obtain ⟨s', hread', hs', hb⟩ := exists_reading_attemptList b
  have hlist := attemptList_of_relocate htape
  have hout : parseScript b = (parseScript a).relocate f := by
    rw [hb, ha, hlist, ← Outcome.ofAttempts_map_relocate, List.map_map, List.map_map]
    rfl
  rw [htokens]
  refine ⟨?_, ?_, attemptList a, attemptList b, s, s', hread, hs, hread', hs', ha, hb, ?_, ?_, ?_⟩
  · rw [hout]
    rfl
  · rw [hout, Outcome.relocate, List.forall₂_map_right_iff, List.forall₂_same]
    intro e he
    rw [ha] at he
    obtain ⟨at', hat, hea⟩ := List.mem_filterMap.1 he
    obtain ⟨x, hx, rfl⟩ := List.mem_map.1 hat
    refine SyntaxError.matches_relocate f ?_
    obtain ⟨p, st | ⟨e', n⟩⟩ := x
    · cases hea
    · obtain rfl := Option.some.inj hea
      exact token_mem_of_mem_attemptList hx rfl
  · simp [attemptList, Function.comp_def]
  · simp [attemptList, Function.comp_def]
  · rw [hlist, List.forall₂_map_right_iff, List.forall₂_same]
    exact fun x hx => ⟨forall₂_sameWord_relocate f x.1,
      Attempt.matches_relocate f fun e n he => token_mem_of_mem_attemptList hx he⟩

/-- A script with two broken statements, in two layouts. -/
theorem exists_readings_of_sameWord_select_drop :
    List.Forall₂ Token.SameWord
        (Scanner.ofString "SELECT a FROM t WHERE x<=1.5;DROP 1;\n!").drain.1
        (Scanner.ofString "\nSELECT a FROM t\nWHERE x <= 1.5 ;DROP\r1\t; !").drain.1 ∧
      (parseScript "SELECT a FROM t WHERE x<=1.5;DROP 1;\n!").script =
        (parseScript "\nSELECT a FROM t\nWHERE x <= 1.5 ;DROP\r1\t; !").script ∧
      (parseScript "SELECT a FROM t WHERE x<=1.5;DROP 1;\n!").diagnostics =
        ["Expected KwTable, got Int '1' 1:35",
          "Expected CREATE, SELECT, INSERT, DELETE or DROP, got Unknown '!' 2:1"] ∧
      (parseScript "\nSELECT a FROM t\nWHERE x <= 1.5 ;DROP\r1\t; !").diagnostics =
        ["Expected KwTable, got Int '1' 3:22",
          "Expected CREATE, SELECT, INSERT, DELETE or DROP, got Unknown '!' 3:26"] := by
  have hwords : List.Forall₂ Token.SameWord
      (Scanner.ofString "SELECT a FROM t WHERE x<=1.5;DROP 1;\n!").drain.1
      (Scanner.ofString "\nSELECT a FROM t\nWHERE x <= 1.5 ;DROP\r1\t; !").drain.1 := by
    decide +kernel
  have hscript := (exists_readings_of_sameWord hwords).1
  exact ⟨hwords, hscript, by decide +kernel, by decide +kernel⟩

end SqlScript
