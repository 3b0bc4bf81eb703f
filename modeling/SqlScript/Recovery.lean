import SqlScript.Grammar

/-!
# Reading a script

A script is read statement by statement. A statement with an error is given up: the tokens from
the unacceptable one up to the next semicolon, or to the end, are skipped, and reading goes on
behind it. Each statement, good or bad, is one `Attempt`. An attempt that starts in front of a
token uses it up (`size_attempt_lt`), so a script is read to its end whatever it holds.
-/

namespace SqlScript

open TokenSource

variable {σ : Type} [TokenSource σ]

/-! ## Skipping -/

/-- Skip tokens up to and with the next semicolon, or up to the end, and count them on from `n`. -/
def skipFrom (n : Nat) (s : σ) : Nat × σ :=
  let r := take s
  if r.1.isEnd then (n, r.2)
  else if r.1.kind = .mark .semicolon then (n + 1, r.2)
  else skipFrom (n + 1) r.2
termination_by size s
decreasing_by next h _ => exact size_take_lt s (by simpa using h)

/-- Skip what is left of a statement: how many tokens that were, and the source behind them. -/
def skip (s : σ) : Nat × σ := skipFrom 0 s

theorem size_skipFrom_le (n : Nat) (s : σ) : size (skipFrom n s).2 ≤ size s := by
  fun_induction skipFrom n s with
  | case1 n s r h => exact size_take_le s
  | case2 n s r h hs => exact size_take_le s
  | case3 n s r h hs ih => exact Nat.le_trans ih (size_take_le s)

theorem size_skip_lt {s : σ} (h : (take s).1.isEnd = false) : size (skip s).2 < size s := by
  have ht := size_take_lt s h
  unfold skip skipFrom
  dsimp only
  rw [h]
  split
  · contradiction
  · split
    · exact ht
    · exact Nat.lt_of_le_of_lt (size_skipFrom_le 1 (take s).2) ht

/-! ## Attempts -/

/-- What became of a statement: its tree, or the error for which it was given up and the number
of tokens skipped. -/
inductive Attempt
  | parsed (s : Statement)
  | recovered (e : SyntaxError) (skipped : Nat)
  deriving DecidableEq

namespace Attempt

/-- The statement of a successful attempt. -/
def statement? : Attempt → Option Statement
  | parsed s => some s
  | recovered _ _ => none

/-- The error of a failed attempt. -/
def error? : Attempt → Option SyntaxError
  | parsed _ => none
  | recovered e _ => some e

/-- The event that reports an attempt. -/
def event : Attempt → Event
  | parsed s => .parsedStatement s
  | recovered e n => .recovered e n

/-- An attempt and the source behind it, with the attempt in the log. -/
def report (a : Attempt) (s : σ) : Attempt × σ := (a, note a.event s)

end Attempt

/-- Read one statement, or give it up, and report that. -/
def attempt (s : σ) : Attempt × σ :=
  match Grammar.statement.run s with
  | (.ok st, s') => (Attempt.parsed st).report s'
  | (.error e, s') =>
    let r := skip s'
    (Attempt.recovered e r.1).report r.2

/-- A sequence whose first word is there takes at least that word. -/
theorem Rule.size_expect_bind_lt {α : Type} {k : Kind} (hk : k ≠ .endOfInput)
    (f : String → Rule σ α) {s : σ} (h : (peek s).1.kind = k) :
    size ((expect k >>= f).run s).2 < size s := by
  have hr : (expect (σ := σ) k).run s = (.ok (peek s).1.text, (take (peek s).2).2) := by
    simp [expect, token, h]
  rw [run_bind, hr]
  refine Nat.lt_of_le_of_lt ((f _).size_run_le _) (size_take_peek_lt ?_)
  simp [Token.isEnd, h, hk]

/-- The statement rule takes a token, or it fails in front of the first one. -/
theorem size_statement_lt_or (s : σ) :
    size (Grammar.statement.run s).2 < size s ∨
      Grammar.statement.run s = (.error ⟨.statement, (peek s).1⟩, (peek s).2) := by
  have hp : (peek (peek s).2).1 = (peek s).1 := by rw [fst_peek, take_peek, fst_peek]
  have hs := size_peek_le s
  unfold Grammar.statement
  rw [Rule.run_bind]
  simp only [Rule.look]
  split
  case h_6 => exact .inr rfl
  all_goals
    next h =>
      exact .inl (Nat.lt_of_lt_of_le (Rule.size_expect_bind_lt (by decide) _ (hp ▸ h)) hs)

/-- An attempt that starts in front of a token uses up at least that token. -/
theorem size_attempt_lt {s : σ} (h : (take s).1.isEnd = false) : size (attempt s).2 < size s := by
  have hs := size_statement_lt_or s
  unfold attempt
  split
  · next st s' he =>
    rw [he] at hs
    refine Nat.lt_of_le_of_lt (size_note_le _ _) (hs.resolve_right ?_)
    simp
  · next e s' he =>
    rw [he] at hs
    refine Nat.lt_of_le_of_lt (size_note_le _ _) ?_
    rcases hs with hs | hs
    · exact Nat.lt_of_le_of_lt (size_skipFrom_le 0 s') hs
    · obtain ⟨-, rfl⟩ := Prod.mk.inj hs
      refine Nat.lt_of_lt_of_le (size_skip_lt ?_) (size_peek_le s)
      rwa [take_peek]

/-- The attempts at the statements up to the end of input, added to `acc`. -/
def attemptsOnto (acc : Array Attempt) (s : σ) : Array Attempt × σ :=
  let r := peek s
  if r.1.isEnd then (acc, r.2)
  else
    let a := attempt r.2
    attemptsOnto (acc.push a.1) a.2
termination_by size s
decreasing_by
  next h =>
    refine Nat.lt_of_lt_of_le (size_attempt_lt ?_) (size_peek_le s)
    rw [take_peek, ← fst_peek]
    simpa using h

/-- The attempts at the statements up to the end of input. -/
def attempts (s : σ) : List Attempt × σ :=
  let r := attemptsOnto #[] s
  (r.1.toList, r.2)

end SqlScript
