import SqlScript.Proofs.Upcoming

/-!
# One attempt for each segment

`segments` cuts a list of tokens behind every semicolon; what stands behind the last one is a
segment of its own, an open one. `Reading s run s'` follows the attempts at a script from the
scanner `s` to the scanner `s'` and lists them, each with the tokens that it uses up.

The main result is `exists_reading_segments`: the attempts use up exactly the segments, one
attempt a segment, and what an attempt comes to is the `verdict` on the words of its segment. On
tapes this is `attempt_terminated` and `attempt_isPlain`. No rule takes a semicolon before it is
done, and none looks behind it, so two tapes that agree up to a semicolon are read in step up
to it.
-/

namespace SqlScript

open TokenSource

/-! ## Cutting behind the semicolons -/

/-- Whether there is no semicolon among the tokens. -/
def isOpen (q : List Token) : Bool := q.all (fun t => t.kind ≠ .mark .semicolon)

/-- The tokens of each statement. A token joins the segment of the token behind it, unless it
ends a segment. -/
def segments : List Token → List (List Token)
  | [] => []
  | t :: ts =>
    if t.kind = .mark .semicolon then [t] :: segments ts
    else
      match segments ts with
      | [] => [[t]]
      | seg :: segs => (t :: seg) :: segs

/-- `segs` are the consecutive pieces of the tokens: each ends with its only semicolon, except
that the last one may be open, and then is not empty. -/
inductive Segmented : List Token → List (List Token) → Prop
  | nil : Segmented [] []
  | last {q : List Token} (hne : q ≠ []) (hq : isOpen q = true) : Segmented q [q]
  | cons {q : List Token} {e : Token} {r : List Token} {segs : List (List Token)}
      (hq : isOpen q = true) (he : e.kind = .mark .semicolon) (h : Segmented r segs) :
      Segmented (q ++ e :: r) ((q ++ [e]) :: segs)

theorem segmented_segments (ts : List Token) : Segmented ts (segments ts) := by
  induction ts with
  | nil => exact .nil
  | cons t ts ih =>
    unfold segments
    split
    · next ht => exact .cons (q := []) rfl ht ih
    · next ht =>
      generalize segments ts = segs at ih
      cases ih with
      | nil => exact .last (by simp) (by simp [isOpen, ht])
      | last hne hq => exact .last (by simp) (by simpa [isOpen, ht] using hq)
      | @cons q e r segs hq he h =>
        exact .cons (q := t :: q) (by simpa [isOpen, ht] using hq) he h

theorem Segmented.flatten {ts : List Token} {segs : List (List Token)} (h : Segmented ts segs) :
    segs.flatten = ts := by
  induction h with
  | nil => rfl
  | last hne hq => simp
  | cons hq he h ih => simp [ih]

theorem Segmented.mem_of_mem {ts seg : List Token} {segs : List (List Token)}
    (h : Segmented ts segs) (hseg : seg ∈ segs) {t : Token} (ht : t ∈ seg) : t ∈ ts := by
  rw [← h.flatten]
  exact List.mem_flatten_of_mem hseg ht

/-- The tokens of one statement: none of them is a semicolon, or only the last one. -/
def IsSegment (seg : List Token) : Prop :=
  isOpen seg = true ∨ ∃ q e, seg = q ++ [e] ∧ isOpen q = true ∧ e.kind = .mark .semicolon

theorem Segmented.isSegment_of_mem {ts seg : List Token} {segs : List (List Token)}
    (h : Segmented ts segs) (hseg : seg ∈ segs) : IsSegment seg := by
  induction h with
  | nil => cases hseg
  | last hne hq => exact .inl (List.mem_singleton.1 hseg ▸ hq)
  | @cons q e r segs hq he h ih =>
    rcases List.mem_cons.1 hseg with rfl | hseg
    · exact .inr ⟨q, e, rfl, hq, he⟩
    · exact ih hseg

/-- There is a segment for each semicolon, and one more if one is open. -/
theorem Segmented.length_eq {ts : List Token} {segs : List (List Token)} (h : Segmented ts segs) :
    segs.length =
      ts.countP (fun t => t.kind = .mark .semicolon) + if segs.any isOpen then 1 else 0 := by
  have hcount : ∀ q : List Token, isOpen q = true →
      q.countP (fun t => t.kind = .mark .semicolon) = 0 := fun q hq => by
    simpa [List.countP_eq_zero, isOpen] using hq
  induction h with
  | nil => rfl
  | last hne hq => simp [hcount _ hq, hq]
  | @cons q e r segs hq he h ih =>
    have hc : isOpen (q ++ [e]) = false := by simp [isOpen, he]
    simp only [List.length_cons, ih, List.countP_append, hcount q hq, List.countP_cons, he,
      decide_true, if_true, List.any_cons, hc, Bool.false_or]
    omega

/-! ## Attempts on a tape -/

namespace Tape

/-- The tokens that may stand in front of a statement's semicolon. -/
def IsPlain (q : List Token) : Prop := ∀ t ∈ q, t.kind ≠ .mark .semicolon ∧ t.isEnd = false

theorem IsPlain.of_cons {t : Token} {q : List Token} (h : IsPlain (t :: q)) : IsPlain q :=
  fun u hu => h u (List.mem_cons_of_mem t hu)

theorem isPlain_of_isOpen {q : List Token} (hq : isOpen q = true)
    (he : ∀ t ∈ q, t.isEnd = false) : IsPlain q :=
  fun t ht => ⟨by simpa using List.all_eq_true.1 hq t ht, he t ht⟩

theorem skipFrom_terminated {q : List Token} (hq : IsPlain q) {e : Token}
    (he : e.kind = .mark .semicolon) (n : Nat) (r : List Token) (l : Location) :
    skipFrom n (⟨q ++ e :: r, l⟩ : Tape) = (n + q.length + 1, ⟨r, l⟩) := by
  induction q generalizing n with
  | nil =>
    have hend : e.isEnd = false := by simp [Token.isEnd, he]
    rw [skipFrom]
    simp [TokenSource.take, take, hend, he]
  | cons t q ih =>
    obtain ⟨hk, hend⟩ := hq t List.mem_cons_self
    rw [skipFrom]
    simp only [TokenSource.take, take, List.cons_append, hend, hk, Bool.false_eq_true, if_false]
    rw [ih hq.of_cons]
    simp [Nat.add_right_comm, Nat.add_assoc]

theorem skipFrom_isPlain {q : List Token} (hq : IsPlain q) (n : Nat) (l : Location) :
    skipFrom n (⟨q, l⟩ : Tape) = (n + q.length, ⟨[], l⟩) := by
  induction q generalizing n with
  | nil =>
    rw [skipFrom]
    simp [TokenSource.take, take, Token.endOfInput, Token.isEnd]
  | cons t q ih =>
    obtain ⟨hk, hend⟩ := hq t List.mem_cons_self
    rw [skipFrom]
    simp only [TokenSource.take, take, hend, hk, Bool.false_eq_true, if_false]
    rw [ih hq.of_cons]
    simp [Nat.add_right_comm, Nat.add_assoc]

/-- Tapes that agree up to a semicolon ahead are read in step as long as it is not taken. -/
theorem coupling_terminated {e : Token} (he : e.kind = .mark .semicolon) (r r' : List Token)
    (l l' : Location) :
    Coupling (fun s t : Tape =>
      ∃ q, IsPlain q ∧ s = ⟨q ++ e :: r, l⟩ ∧ t = ⟨q ++ e :: r', l'⟩) where
  kind_peek := by
    rintro _ _ ⟨_ | _, _, rfl, rfl⟩ <;> rfl
  text_peek := by
    rintro _ _ ⟨_ | _, _, rfl, rfl⟩ <;> rfl
  peek := by
    rintro _ _ ⟨_ | ⟨t, q⟩, hq, rfl, rfl⟩
    · exact ⟨[], hq, rfl, rfl⟩
    · exact ⟨t :: q, hq, rfl, rfl⟩
  take := by
    rintro _ _ ⟨_ | ⟨t, q⟩, hq, rfl, rfl⟩ hk
    · have hi : e.kind.isInner = true := hk
      rw [he] at hi
      cases hi
    · exact ⟨q, hq.of_cons, rfl, rfl⟩

/-- **What an attempt comes to is settled at the semicolon**: it uses up the tokens up to there,
and nothing behind them matters. -/
theorem attempt_terminated {q : List Token} (hq : IsPlain q) {e : Token}
    (he : e.kind = .mark .semicolon) (r r' : List Token) (l l' : Location) :
    attempt (⟨q ++ e :: r, l⟩ : Tape) = ((attempt (⟨q ++ e :: r', l'⟩ : Tape)).1, ⟨r, l⟩) := by
  have hc := Grammar.statement_coupled (coupling_terminated he r r' l l')
    (Q := fun s t => s = ⟨r, l⟩ ∧ t = ⟨r', l'⟩) (by
      rintro _ _ ⟨_ | ⟨t, q⟩, hq, rfl, rfl⟩ hk
      · exact ⟨rfl, rfl⟩
      · exact absurd hk (hq t List.mem_cons_self).1)
  have hrun := hc ⟨q, hq, rfl, rfl⟩
  unfold attempt
  generalize Grammar.statement.run (⟨q ++ e :: r, l⟩ : Tape) = x at hrun
  generalize Grammar.statement.run (⟨q ++ e :: r', l'⟩ : Tape) = y at hrun
  cases hrun with
  | ok h =>
    obtain ⟨rfl, rfl⟩ := h
    rfl
  | @error expected u v s t h hu hv =>
    obtain ⟨q', hq', rfl, rfl⟩ := h
    obtain rfl : u = v := by
      rw [← hu, ← hv]
      cases q' <;> rfl
    simp only [skip, skipFrom_terminated hq' he, Attempt.report]
    rfl

/-- A tape without a semicolon stays one. -/
theorem coupling_isPlain (l : Location) :
    Coupling (fun s t : Tape => ∃ q, IsPlain q ∧ s = ⟨q, l⟩ ∧ t = ⟨q, l⟩) where
  kind_peek := by
    rintro _ _ ⟨q, -, rfl, rfl⟩
    rfl
  text_peek := by
    rintro _ _ ⟨q, -, rfl, rfl⟩
    rfl
  peek := by
    rintro _ _ ⟨_ | ⟨t, q⟩, hq, rfl, rfl⟩
    · exact ⟨[], hq, rfl, rfl⟩
    · exact ⟨t :: q, hq, rfl, rfl⟩
  take := by
    rintro _ _ ⟨_ | ⟨t, q⟩, hq, rfl, rfl⟩ _
    · exact ⟨[], hq, rfl, rfl⟩
    · exact ⟨q, hq.of_cons, rfl, rfl⟩

/-- **Without a semicolon there is no statement**: the attempt fails and skips to the end. -/
theorem attempt_isPlain {q : List Token} (hq : IsPlain q) (l : Location) :
    ∃ e n, attempt (⟨q, l⟩ : Tape) = (.recovered e n, ⟨[], l⟩) := by
  have hc := Grammar.statement_coupled (coupling_isPlain l) (Q := fun _ _ => False) (by
    rintro _ _ ⟨_ | ⟨t, q⟩, hq, rfl, rfl⟩ hk
    · cases hk
    · exact (hq t List.mem_cons_self).1 hk)
  have hrun := hc ⟨q, hq, rfl, rfl⟩
  unfold attempt
  generalize Grammar.statement.run (⟨q, l⟩ : Tape) = x at hrun
  rcases x with ⟨e | st, t⟩
  · cases hrun with
    | error h hu hv =>
      obtain ⟨q', hq', rfl, -⟩ := h
      simp only [skip, skipFrom_isPlain hq']
      exact ⟨_, _, rfl⟩
  · cases hrun with
    | ok h => exact h.elim

theorem attempts_of_ne_nil {ts : List Token} (hne : ts ≠ []) (he : ∀ t ∈ ts, t.isEnd = false)
    (l : Location) :
    attempts (⟨ts, l⟩ : Tape) =
      ((attempt (⟨ts, l⟩ : Tape)).1 :: (attempts (attempt (⟨ts, l⟩ : Tape)).2).1,
        (attempts (attempt (⟨ts, l⟩ : Tape)).2).2) := by
  obtain ⟨t, ts, rfl⟩ := List.exists_cons_of_ne_nil hne
  rw [attempts_of_not_isEnd (he t List.mem_cons_self), snd_peek]

/-- **A tape is read segment by segment**, each as if it stood alone. -/
theorem attempts_eq_map_segments {ts : List Token} {segs : List (List Token)}
    (h : Segmented ts segs) (he : ∀ t ∈ ts, t.isEnd = false) (l : Location) :
    attempts (⟨ts, l⟩ : Tape) = (segs.map (fun seg => (attempt (⟨seg, l⟩ : Tape)).1), ⟨[], l⟩) := by
  induction h with
  | nil => exact attempts_of_isEnd rfl
  | @last q hne hq =>
    obtain ⟨e, n, ha⟩ := attempt_isPlain (isPlain_of_isOpen hq he) l
    rw [attempts_of_ne_nil hne he, ha, attempts_of_isEnd rfl]
    simp [ha, snd_peek]
  | @cons q e r segs hq hk h ih =>
    have hqe : ∀ t ∈ q, t.isEnd = false := fun t ht => he t (by simp [ht])
    have ha := attempt_terminated (isPlain_of_isOpen hq hqe) hk r [] l l
    rw [attempts_of_ne_nil (by simp) he, ha, ih fun t ht => he t (by simp [ht])]
    rfl

end Tape

/-! ## Attempts on a text -/

/-- The tokens of a text, without the end of input. -/
def properTokens (text : String) : List Token :=
  (Scanner.ofString text).remaining.filter (fun t => !t.isEnd)

/-- `Reading s run s'`: the attempts at the script that the scanner `s` has ahead are those of
`run`, each listed with the tokens that it uses up, and behind the last one the scanner is `s'`. -/
inductive Reading : Scanner → List (List Token × Attempt) → Scanner → Prop
  | done {s : Scanner} (h : s.peek.1.isEnd = true) : Reading s [] s.peek.2
  | attempt {s : Scanner} {p : List Token} {run : List (List Token × Attempt)} {s' : Scanner}
      (h : s.peek.1.isEnd = false)
      (consumed : s.remaining = p ++ (SqlScript.attempt s.peek.2).2.remaining)
      (rest : Reading (SqlScript.attempt s.peek.2).2 run s') :
      Reading s ((p, (SqlScript.attempt s.peek.2).1) :: run) s'

/-- The attempts that a reading lists are those that are made. -/
theorem Reading.attempts_eq {s s' : Scanner} {run : List (List Token × Attempt)}
    (h : Reading s run s') : attempts s = (run.map Prod.snd, s') := by
  induction h with
  | done h => exact attempts_of_isEnd h
  | attempt h _ _ ih =>
    rw [attempts_of_not_isEnd h]
    exact congrArg (fun r => (_ :: r.1, r.2)) ih

/-- What an attempt at the given tokens comes to if they stand alone, all at one place. -/
def verdict (seg : List Token) : Attempt :=
  (attempt (Tape.mk (seg.map (Token.relocate fun _ => .start)) .start)).1

theorem Tape.relocate_attempt_eq_verdict (seg : List Token) (l : Location) :
    (attempt (⟨seg, l⟩ : Tape)).1.relocate (fun _ => .start) = verdict seg :=
  ((Tape.simulation_relocate fun _ => .start).attempt rfl).1.symm

/-- A scanner uses up in one attempt what its tape does, and comes to the same. -/
theorem Scanner.ReadsAs.attempt {s : Scanner} {t : Tape} (h : s.ReadsAs t) :
    (SqlScript.attempt t).1 = (SqlScript.attempt s.peek.2).1 ∧
      (SqlScript.attempt s.peek.2).2.ReadsAs (SqlScript.attempt t).2 := by
  have hp := h.peek
  have ht : t.peek.2 = t := t.snd_peek
  rw [ht] at hp
  simpa using simulation_readsAs.attempt hp

/-- The attempts at a script use up the segments ahead, one after another. -/
theorem Scanner.ReadsAs.exists_reading {ts : List Token} {segs : List (List Token)}
    (hs : Segmented ts segs) {l : Location} {s : Scanner} (h : s.ReadsAs ⟨ts, l⟩) :
    ∃ s', s'.ReadsAs ⟨[], l⟩ ∧
      Reading s (segs.map fun seg => (seg, (SqlScript.attempt (⟨seg, l⟩ : Tape)).1)) s' := by
  have hend : ∀ {s : Scanner} {t : Tape}, s.ReadsAs t → s.peek.1.isEnd = t.peek.1.isEnd :=
    fun h => (congrArg Token.isEnd (Scanner.simulation_readsAs.fst_peek h)).symm
  induction hs generalizing s with
  | nil => exact ⟨s.peek.2, h.peek, .done (hend h)⟩
  | @last q hne hq =>
    obtain ⟨ha, h'⟩ := h.attempt
    obtain ⟨e, n, hq'⟩ := Tape.attempt_isPlain (Tape.isPlain_of_isOpen hq h.isEnd_eq_false) l
    rw [hq'] at h'
    refine ⟨_, h'.peek, ?_⟩
    simp only [List.map_cons, List.map_nil]
    rw [ha]
    refine .attempt ?_ ?_ (.done (hend h'))
    · obtain ⟨t, q, rfl⟩ := List.exists_cons_of_ne_nil hne
      rw [hend h]
      exact h.isEnd_eq_false t List.mem_cons_self
    · rw [h.remaining_eq, h'.remaining_eq]
      rfl
  | @cons q e r segs hq hk hr ih =>
    have hq' := Tape.isPlain_of_isOpen hq fun t ht => h.isEnd_eq_false t (by simp [ht])
    have hat := Tape.attempt_terminated hq' hk r [] l l
    obtain ⟨ha, h'⟩ := h.attempt
    rw [hat] at ha h'
    obtain ⟨s', hs', hrun⟩ := ih h'
    refine ⟨s', hs', ?_⟩
    simp only [List.map_cons]
    rw [ha]
    refine .attempt ?_ ?_ hrun
    · rw [hend h]
      exact h.isEnd_eq_false _ (by cases q <;> simp [Tape.peek])
    · rw [h.remaining_eq, h'.remaining_eq]
      simp

theorem Scanner.ReadsAs.filter_remaining {s : Scanner} {t : Tape} (h : s.ReadsAs t) :
    s.remaining.filter (fun u => !u.isEnd) = t.upcoming := by
  rw [h.remaining_eq, List.filter_append, List.filter_eq_self.2]
  · simp [Token.endOfInput, Token.isEnd]
  · intro u hu
    simp [h.isEnd_eq_false u hu]

/-- The statements and the errors that attempts contribute, one of either for each attempt, in the
order of the attempts. -/
inductive Contribute : List Attempt → List Statement → List SyntaxError → Prop
  | nil : Contribute [] [] []
  | parsed {as : List Attempt} {sts : List Statement} {es : List SyntaxError} {st : Statement}
      (h : Contribute as sts es) : Contribute (.parsed st :: as) (st :: sts) es
  | recovered {as : List Attempt} {sts : List Statement} {es : List SyntaxError} {e : SyntaxError}
      {n : Nat} (h : Contribute as sts es) : Contribute (.recovered e n :: as) sts (e :: es)

theorem contribute_ofAttempts (as : List Attempt) :
    Contribute as (Outcome.ofAttempts as).script.statements (Outcome.ofAttempts as).errors := by
  induction as with
  | nil => exact .nil
  | cons a as ih =>
    cases a with
    | parsed st => exact .parsed ih
    | recovered e n => exact .recovered ih

theorem Contribute.length_eq {as : List Attempt} {sts : List Statement} {es : List SyntaxError}
    (h : Contribute as sts es) : sts.length + es.length = as.length := by
  induction h with
  | nil => rfl
  | parsed _ ih => rw [List.length_cons, List.length_cons, ← ih, Nat.add_right_comm]
  | recovered _ ih => rw [List.length_cons, List.length_cons, ← ih, Nat.add_assoc]

/-- The attempts that a reading lists contribute the outcome of reading the text. -/
theorem Reading.contribute {text : String} {run : List (List Token × Attempt)} {s' : Scanner}
    (h : Reading (.ofString text) run s') : parseScript text = .ofAttempts (run.map Prod.snd) ∧
      Contribute (run.map Prod.snd) (parseScript text).script.statements
        (parseScript text).errors := by
  have hp : parseScript text = .ofAttempts (attempts (Scanner.ofString text)).1 := rfl
  rw [h.attempts_eq] at hp
  exact ⟨hp, hp ▸ contribute_ofAttempts _⟩

theorem isEnd_eq_false_of_mem_properTokens {text : String} {t : Token}
    (h : t ∈ properTokens text) : t.isEnd = false := by
  simpa using (List.mem_filter.1 h).2

/-- A text is read as the tape of its tokens is, with one attempt for each segment of it. -/
theorem exists_reading_tape (text : String) :
    ∃ l run s', Reading (.ofString text) run s' ∧ s'.take.1.isEnd = true ∧
      (Scanner.ofString text).remaining = properTokens text ++ [.endOfInput l] ∧
      run.map Prod.fst = segments (properTokens text) ∧
      ∀ x ∈ run, IsSegment x.1 ∧ (∀ t ∈ x.1, t ∈ properTokens text) ∧
        x.2 = (attempt (⟨x.1, l⟩ : Tape)).1 := by
  have hstart : (Scanner.ofString text).Reachable text := .start
  obtain ⟨⟨ts, l⟩, ht⟩ := hstart.exists_readsAs
  obtain rfl : properTokens text = ts := ht.filter_remaining
  have hseg := segmented_segments (properTokens text)
  obtain ⟨s', hs', hrun⟩ := ht.exists_reading hseg
  refine ⟨l, _, s', hrun, ?_, ht.remaining_eq, by simp [Function.comp_def], fun x hx => ?_⟩
  · rw [hs'.fst_take]
    rfl
  · obtain ⟨seg, hmem, rfl⟩ := List.mem_map.1 hx
    exact ⟨hseg.isSegment_of_mem hmem, fun t => hseg.mem_of_mem hmem, rfl⟩

/-- **A script is read segment by segment.** Its tokens fall into segments, each up to a
semicolon, except that the last one may lack it. There is one attempt for each segment, in order;
it uses up exactly that segment, and comes to what the words of the segment alone come to, with
the error, if there is one, named where it stands. An open segment comes to an error. Each attempt
contributes one statement or one error, in order, so there are as many of both together as there
are semicolons, and one more if the last segment is open. -/
theorem exists_reading_segments (text : String) :
    Segmented (properTokens text) (segments (properTokens text)) ∧
    ∃ run s', Reading (.ofString text) run s' ∧ s'.take.1.isEnd = true ∧
      run.map Prod.fst = segments (properTokens text) ∧
      (∀ x ∈ run, x.2.relocate (fun _ => .start) = verdict x.1) ∧
      (∀ x ∈ run, isOpen x.1 = true → ∃ e n, x.2 = .recovered e n) ∧
      parseScript text = .ofAttempts (run.map Prod.snd) ∧
      Contribute (run.map Prod.snd) (parseScript text).script.statements
        (parseScript text).errors ∧
      (parseScript text).script.length + (parseScript text).errors.length =
        (properTokens text).countP (fun t => t.kind = .mark .semicolon) +
          if (segments (properTokens text)).any isOpen then 1 else 0 := by
  have hseg := segmented_segments (properTokens text)
  obtain ⟨l, run, s', hrun, hs', -, hfst, hat⟩ := exists_reading_tape text
  obtain ⟨hp, hcontribute⟩ := hrun.contribute
  refine ⟨hseg, run, s', hrun, hs', hfst, fun x hx => ?_, fun x hx ho => ?_, hp, hcontribute, ?_⟩
  · rw [(hat x hx).2.2]
    exact Tape.relocate_attempt_eq_verdict x.1 l
  · obtain ⟨-, hmem, ha⟩ := hat x hx
    have hplain := Tape.isPlain_of_isOpen ho fun t ht =>
      isEnd_eq_false_of_mem_properTokens (hmem t ht)
    obtain ⟨e, n, he⟩ := Tape.attempt_isPlain hplain l
    exact ⟨e, n, ha.trans (congrArg Prod.fst he)⟩
  · refine hcontribute.length_eq.trans ?_
    rw [← hseg.length_eq, ← hfst, List.length_map, List.length_map]

end SqlScript
