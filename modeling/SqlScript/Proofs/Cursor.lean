import Mathlib.Data.List.Forall2
import SqlScript.Proofs.Segments
import SqlScript.Session

/-!
# A scanner is a cursor over its tokens

Whatever is done with a scanner, it answers like a cursor over the fixed list of the tokens of its
text. A `Cursor` knows how many tokens have been taken and whether `next` has given the end of
input; it scans nothing and holds no pending token. A `CursorSession` adds the saved copies.

`Scanner.StandsAt` relates a scanner to the cursor that it answers like, and each operation keeps
that relation (`Session.Follows.step`). So a whole session answers like its cursor
(`exists_run_eq_cursor`). Looking at a token does not move a cursor, so looks can be put in or left
out without any effect on the other answers (`CursorSession.filter_zip_run`).
-/

namespace SqlScript

/-! ## Places on a tape -/

namespace Tape

/-- The token at place `k`. Behind the last one the end of input stands for ever. -/
def get (t : Tape) (k : Nat) : Token := t.upcoming[k]?.getD (.endOfInput t.finish)

/-- The tape from place `k` on. -/
def drop (t : Tape) (k : Nat) : Tape := ⟨t.upcoming.drop k, t.finish⟩

/-- The tokens from place `k` on, up to and with the end of input. -/
def toEnd (t : Tape) (k : Nat) : List Token := t.upcoming.drop k ++ [.endOfInput t.finish]

variable {t : Tape} {k : Nat}

theorem fst_take_drop (t : Tape) (k : Nat) : (t.drop k).take.1 = t.get k := by
  rw [get, ← List.head?_drop]
  rcases h : t.upcoming.drop k with _ | ⟨u, us⟩ <;> simp [drop, take, h]

theorem snd_take_drop (t : Tape) (k : Nat) :
    (t.drop k).take.2 = t.drop (min (k + 1) t.upcoming.length) := by
  rcases Nat.lt_or_ge k t.upcoming.length with hk | hk
  · rw [Nat.min_eq_left hk, drop, List.drop_eq_getElem_cons hk]
    rfl
  · rw [Nat.min_eq_right (Nat.le_succ_of_le hk), drop, drop, List.drop_eq_nil_of_le hk,
      List.drop_length]
    rfl

theorem isEnd_get_of_lt (ht : ∀ u ∈ t.upcoming, u.isEnd = false) (hk : k < t.upcoming.length) :
    (t.get k).isEnd = false := by
  rw [get, List.getElem?_eq_getElem hk]
  exact ht _ (List.getElem_mem hk)

theorem isEnd_get_of_le (hk : t.upcoming.length ≤ k) : (t.get k).isEnd = true := by
  rw [get, List.getElem?_eq_none hk]
  rfl

theorem toEnd_of_lt (hk : k < t.upcoming.length) : t.toEnd k = t.get k :: t.toEnd (k + 1) := by
  rw [toEnd, toEnd, get, List.drop_eq_getElem_cons hk, List.getElem?_eq_getElem hk]
  rfl

theorem toEnd_of_le (hk : t.upcoming.length ≤ k) : t.toEnd k = [t.get k] := by
  rw [toEnd, get, List.drop_eq_nil_of_le hk, List.getElem?_eq_none hk]
  rfl

end Tape

/-! ## Cursors -/

/-- A place in a list of tokens. -/
structure Cursor where
  /-- How many tokens have been taken, the end of input not counted. -/
  index : Nat
  /-- Whether `next` has given the end of input. -/
  finished : Bool

namespace Cursor

/-- The cursor behind the next token, or still in front of the end of input. -/
def advance (t : Tape) (c : Cursor) : Cursor :=
  { c with index := min (c.index + 1) t.upcoming.length }

/-- The next token, unless the end of input has been given this way. -/
def next (t : Tape) (c : Cursor) : Option Token × Cursor :=
  if c.finished then (none, c)
  else (some (t.get c.index), { c.advance t with finished := (t.get c.index).isEnd })

/-- What `next` still gives. -/
def rest (t : Tape) (c : Cursor) : List Token × Cursor :=
  if c.finished then ([], c) else (t.toEnd c.index, ⟨t.upcoming.length, true⟩)

/-- Asking for the rest is asking for the next token again and again, until there is none. -/
theorem rest_eq {t : Tape} (ht : ∀ u ∈ t.upcoming, u.isEnd = false) (c : Cursor) :
    c.rest t = match c.next t with
      | (none, c') => ([], c')
      | (some u, c') => (u :: (c'.rest t).1, (c'.rest t).2) := by
  obtain ⟨k, _ | _⟩ := c
  · rcases Nat.lt_or_ge k t.upcoming.length with hk | hk
    · simp [rest, next, advance, Tape.isEnd_get_of_lt ht hk, Tape.toEnd_of_lt hk,
        Nat.min_eq_left (Nat.succ_le_of_lt hk)]
    · simp [rest, next, advance, Tape.isEnd_get_of_le hk, Tape.toEnd_of_le hk,
        Nat.min_eq_right (Nat.le_succ_of_le hk)]
  · rfl

end Cursor

/-- A cursor and the saved copies of it, the latest first. -/
structure CursorSession where
  cursor : Cursor
  saved : List Cursor

namespace CursorSession

/-- A cursor in front of the first token, and no copies. -/
def start : CursorSession := ⟨⟨0, false⟩, []⟩

/-- The answer to one step over the tokens of the tape, and the state after it. -/
def step (t : Tape) (s : CursorSession) : Step → Answer × CursorSession
  | .get => (.token (t.get s.cursor.index), { s with cursor := s.cursor.advance t })
  | .peek => (.token (t.get s.cursor.index), s)
  | .next => (.optional (s.cursor.next t).1, { s with cursor := (s.cursor.next t).2 })
  | .tokenize =>
    (.tokens (t.toEnd s.cursor.index),
      { s with cursor := { s.cursor with index := t.upcoming.length } })
  | .rest => (.tokens (s.cursor.rest t).1, { s with cursor := (s.cursor.rest t).2 })
  | .save => (.saved (s.saved.length + 1), { s with saved := s.cursor :: s.saved })
  | .restore =>
    match s.saved with
    | [] => (.saved 0, s)
    | c :: cs => (.saved cs.length, ⟨c, cs⟩)
  | .parse => (.outcome (SqlScript.parse (t.drop s.cursor.index)).1, s)

/-- The answers to a sequence of steps. -/
def run (t : Tape) (s : CursorSession) : List Step → List Answer
  | [] => []
  | st :: sts => (s.step t st).1 :: (s.step t st).2.run t sts

/-- Without the looks, the other steps are answered the same. -/
theorem filter_zip_run (t : Tape) (s : CursorSession) (sts : List Step) :
    (sts.zip (s.run t sts)).filter (fun x => x.1 ≠ .peek) =
      (sts.filter (· ≠ .peek)).zip (s.run t (sts.filter (· ≠ .peek))) := by
  induction sts generalizing s with
  | nil => rfl
  | cons st sts ih =>
    rw [run, List.zip_cons_cons]
    by_cases hst : st = .peek
    · rw [List.filter_cons_of_neg (by simpa using hst),
        List.filter_cons_of_neg (by simpa using hst), ih, hst]
      rfl
    · rw [List.filter_cons_of_pos (by simpa using hst),
        List.filter_cons_of_pos (by simpa using hst), ih, run, List.zip_cons_cons]

end CursorSession

/-! ## Scanner and cursor -/

namespace Scanner

theorem iterateOnto_eq (acc : Array Token) (s : Scanner) :
    s.iterateOnto acc = (acc ++ (s.iterateOnto #[]).1, (s.iterateOnto #[]).2) := by
  suffices ∀ acc' : Array Token, s.iterateOnto (acc ++ acc') =
      (acc ++ (s.iterateOnto acc').1, (s.iterateOnto acc').2) by
    rw [← this, Array.append_empty]
  intro acc'
  fun_induction iterateOnto acc' s with
  | case1 acc' s r h => rw [iterateOnto]; split <;> simp_all [r]
  | case2 acc' s r u h ih => rw [iterateOnto]; split <;> simp_all [r]

/-- Asking for the rest is asking for the next token again and again, until there is none. -/
theorem iterate_eq (s : Scanner) :
    s.iterate = match s.next? with
      | (none, s') => ([], s')
      | (some u, s') => (u :: s'.iterate.1, s'.iterate.2) := by
  simp only [iterate]
  rw [iterateOnto]
  generalize s.next? = r
  obtain ⟨_ | u, s'⟩ := r
  · rfl
  · simp only
    rw [iterateOnto_eq]
    simp

@[simp] theorem exhausted_take (s : Scanner) : s.take.2.exhausted = s.exhausted := by
  rcases s with ⟨_, _, _ | _, _⟩ <;> rfl

@[simp] theorem exhausted_peek (s : Scanner) : s.peek.2.exhausted = s.exhausted := by
  rcases s with ⟨_, _, _ | _, _⟩ <;> rfl

theorem take_withExhausted (s : Scanner) (b : Bool) :
    ({ s with exhausted := b } : Scanner).take = (s.take.1, { s.take.2 with exhausted := b }) := by
  rcases s with ⟨_, _, _ | _, _⟩ <;> rfl

/-- Taking tokens does not look at what `next?` has given. -/
theorem remaining_withExhausted (s : Scanner) (b : Bool) :
    ({ s with exhausted := b } : Scanner).remaining = s.remaining := by
  have ht := s.take_withExhausted b
  induction hn : s.size using Nat.strongRecOn generalizing s with
  | ind n ih =>
    cases he : s.take.1.isEnd with
    | true =>
      rw [remaining_of_isEnd he, remaining_of_isEnd (by rw [ht]; exact he), ht]
    | false =>
      rw [remaining_of_not_isEnd he, remaining_of_not_isEnd (by rw [ht]; exact he), ht,
        ih _ (hn ▸ size_take_lt he) s.take.2 (take_withExhausted _ _) rfl]

theorem ReadsAs.withExhausted {s : Scanner} {t : Tape} (h : s.ReadsAs t) (b : Bool) :
    ({ s with exhausted := b } : Scanner).ReadsAs t where
  coherent := h.coherent
  remaining_eq := (s.remaining_withExhausted b).trans h.remaining_eq
  isEnd_eq_false := h.isEnd_eq_false

/-- The scanner has ahead what stands behind the cursor. -/
structure StandsAt (t : Tape) (s : Scanner) (c : Cursor) : Prop where
  readsAs : s.ReadsAs (t.drop c.index)
  exhausted_eq : s.exhausted = c.finished

namespace StandsAt

variable {t : Tape} {s : Scanner} {c : Cursor}

theorem fst_take (h : s.StandsAt t c) : s.take.1 = t.get c.index :=
  h.readsAs.fst_take.trans (t.fst_take_drop c.index)

theorem take (h : s.StandsAt t c) : s.take.2.StandsAt t (c.advance t) where
  readsAs := t.snd_take_drop c.index ▸ h.readsAs.take
  exhausted_eq := s.exhausted_take.trans h.exhausted_eq

theorem peek (h : s.StandsAt t c) : s.peek.2.StandsAt t c where
  readsAs := by
    have hp : (t.drop c.index).peek.2 = t.drop c.index := Tape.snd_peek _
    exact hp ▸ h.readsAs.peek
  exhausted_eq := s.exhausted_peek.trans h.exhausted_eq

theorem next (h : s.StandsAt t c) :
    s.next?.1 = (c.next t).1 ∧ s.next?.2.StandsAt t (c.next t).2 := by
  unfold next? Cursor.next
  rw [h.exhausted_eq]
  split
  · exact ⟨rfl, h⟩
  · rw [← h.fst_take]
    exact ⟨rfl, h.take.readsAs.withExhausted _, rfl⟩

/-- Draining gives all that is ahead and goes to the end of input. -/
theorem drain (ht : ∀ u ∈ t.upcoming, u.isEnd = false) (h : s.StandsAt t c) :
    s.drain.1 = t.toEnd c.index ∧
      s.drain.2.StandsAt t { c with index := t.upcoming.length } := by
  refine ⟨h.readsAs.remaining_eq, ?_⟩
  -- by induction on the size of the scanner, which every token but the end lowers
  induction hn : s.size using Nat.strongRecOn generalizing s c with
  | ind n ih =>
    cases he : s.take.1.isEnd with
    | true =>
      have hle : t.upcoming.length ≤ c.index := by
        refine Nat.le_of_not_lt fun hlt => ?_
        rw [h.fst_take, Tape.isEnd_get_of_lt ht hlt] at he
        cases he
      have hadvance : c.advance t = { c with index := t.upcoming.length } := by
        rw [Cursor.advance, Nat.min_eq_right (Nat.le_succ_of_le hle)]
      rw [drain_of_isEnd he, ← hadvance]
      exact h.take
    | false =>
      rw [drain_of_not_isEnd he]
      exact ih _ (hn ▸ size_take_lt he) (c := c.advance t) h.take rfl

theorem iterate (ht : ∀ u ∈ t.upcoming, u.isEnd = false) (h : s.StandsAt t c) :
    s.iterate.1 = (c.rest t).1 ∧ s.iterate.2.StandsAt t (c.rest t).2 := by
  -- by induction on the tokens that the scanner still gives
  induction hn : s.ahead using Nat.strongRecOn generalizing s c with
  | ind n ih =>
    have hnext := h.next
    rw [iterate_eq, Cursor.rest_eq ht]
    generalize hs : s.next? = r at hnext ⊢
    generalize c.next t = r' at hnext ⊢
    obtain ⟨_ | u, s'⟩ := r <;> obtain ⟨_ | u', c'⟩ := r' <;> obtain ⟨hu, h'⟩ := hnext
    · exact ⟨rfl, h'⟩
    · cases hu
    · cases hu
    · obtain rfl := Option.some.inj hu
      have hlt : s'.ahead < n := by
        have := ahead_next?_lt (s := s) (t := u) (by rw [hs])
        rwa [hs, hn] at this
      obtain ⟨h₁, h₂⟩ := ih _ hlt h' rfl
      exact ⟨congrArg (u :: ·) h₁, h₂⟩

end StandsAt

/-- A reachable scanner stands somewhere on the tape of its text. -/
theorem Reachable.exists_standsAt {text : String} {s : Scanner} (h : s.Reachable text)
    {t : Tape} (ht : (ofString text).ReadsAs t) : ∃ c, s.StandsAt t c := by
  induction h with
  | start => exact ⟨⟨0, false⟩, ht, rfl⟩
  | take _ ih =>
    obtain ⟨c, hc⟩ := ih
    exact ⟨_, hc.take⟩
  | peek _ ih =>
    obtain ⟨c, hc⟩ := ih
    exact ⟨c, hc.peek⟩
  | next _ ih =>
    obtain ⟨c, hc⟩ := ih
    exact ⟨_, hc.next.2⟩

end Scanner

/-! ## Sessions -/

/-- The scanner of the session and its saved copies stand where the cursors do. -/
structure Session.Follows (t : Tape) (s : Session) (c : CursorSession) : Prop where
  scanner : s.scanner.StandsAt t c.cursor
  saved : List.Forall₂ (Scanner.StandsAt t) s.saved c.saved

namespace Session.Follows

variable {t : Tape} {s : Session} {c : CursorSession}

/-- **One step** is answered alike, and the cursors go on standing where the scanners do. -/
theorem step (ht : ∀ u ∈ t.upcoming, u.isEnd = false) (h : s.Follows t c) (st : Step) :
    (s.step st).1 = (c.step t st).1 ∧ (s.step st).2.Follows t (c.step t st).2 := by
  obtain ⟨hs, hsaved⟩ := h
  cases st with
  | get => exact ⟨congrArg Answer.token hs.fst_take, hs.take, hsaved⟩
  | peek => exact ⟨congrArg Answer.token (s.scanner.fst_peek.trans hs.fst_take), hs.peek, hsaved⟩
  | next => exact ⟨congrArg Answer.optional hs.next.1, hs.next.2, hsaved⟩
  | tokenize =>
    obtain ⟨htokens, hs'⟩ := hs.drain ht
    exact ⟨congrArg Answer.tokens htokens, hs', hsaved⟩
  | rest =>
    obtain ⟨htokens, hs'⟩ := hs.iterate ht
    exact ⟨congrArg Answer.tokens htokens, hs', hsaved⟩
  | save =>
    exact ⟨congrArg (fun n => Answer.saved (n + 1)) hsaved.length_eq, hs, .cons hs hsaved⟩
  | restore =>
    obtain ⟨scanner, saved⟩ := s
    obtain ⟨cursor, copies⟩ := c
    cases hsaved with
    | nil => exact ⟨rfl, hs, .nil⟩
    | cons hx hxs => exact ⟨congrArg Answer.saved hxs.length_eq, hx, hxs⟩
  | parse =>
    have hparse := Scanner.simulation_readsAs.parse hs.readsAs
    rw [Outcome.relocate_id] at hparse
    exact ⟨congrArg Answer.outcome hparse.symm, hs, hsaved⟩

/-- So is a sequence of steps. -/
theorem run_eq (ht : ∀ u ∈ t.upcoming, u.isEnd = false) (h : s.Follows t c) (sts : List Step) :
    s.run sts = c.run t sts := by
  induction sts generalizing s c with
  | nil => rfl
  | cons st sts ih =>
    obtain ⟨hanswer, h'⟩ := h.step ht st
    rw [Session.run, CursorSession.run, hanswer, ih h']

end Session.Follows

/-- **A scanner is a cursor over its tokens.** Let `t` hold the tokens of a text, behind which the
end of input stands for ever. Any sequence of steps on a scanner at the start of the text is
answered as if there were only a place in that list, the mark whether `next` has given the end of
input, and saved copies of the two. So looks at the next token change no other answer, wherever they
stand in the sequence; and from every scanner that is reached, a script is read alike whether or not
a token is pending. -/
theorem exists_run_eq_cursor (text : String) :
    ∃ t : Tape, (Scanner.ofString text).drain.1 = t.upcoming ++ [.endOfInput t.finish] ∧
      (∀ u ∈ t.upcoming, u.isEnd = false) ∧
      (∀ sts, (Session.ofString text).run sts = CursorSession.start.run t sts) ∧
      (∀ sts : List Step,
        (sts.zip ((Session.ofString text).run sts)).filter (fun x => x.1 ≠ .peek) =
          (sts.filter (· ≠ .peek)).zip ((Session.ofString text).run (sts.filter (· ≠ .peek)))) ∧
      ∀ s : Scanner, s.Reachable text → (parse s.peek.2).1 = (parse s).1 := by
  have hstart : (Scanner.ofString text).Reachable text := .start
  obtain ⟨t, h⟩ := hstart.exists_readsAs
  have hfollows : (Session.ofString text).Follows t .start := ⟨⟨h, rfl⟩, .nil⟩
  have hrun := hfollows.run_eq h.isEnd_eq_false
  refine ⟨t, h.remaining_eq, h.isEnd_eq_false, hrun, fun sts => ?_, fun s hs => ?_⟩
  · rw [hrun, hrun]
    exact CursorSession.filter_zip_run t .start sts
  · obtain ⟨u, hu⟩ := hs.exists_readsAs
    have hpeek : u.peek.2 = u := Tape.snd_peek u
    have hparse := Scanner.simulation_readsAs.parse (hpeek ▸ hu.peek)
    rw [Scanner.simulation_readsAs.parse hu, Outcome.relocate_id, Outcome.relocate_id] at hparse
    exact hparse.symm

end SqlScript
