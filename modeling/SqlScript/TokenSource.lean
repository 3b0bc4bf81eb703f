import SqlScript.Event
import SqlScript.Scanner

/-!
# Where tokens are taken from

The grammar does not care where its tokens come from. A `TokenSource` is anything that shows and
hands out tokens one at a time, that may keep a log of events, and whose tokens come to an end:
taking a token other than the end of input lowers its `size`.

There are three sources. A `Scanner` scans the tokens of a text when they are asked for. A
`LoggedScanner` does the same and keeps a log, in which a piece of text that is no token is noted
when it is scanned. A `Tape` holds its tokens in a list. The first two read a text in the same
way, and a tape is what is left of either once its text has been scanned to the end.
-/

namespace SqlScript

/-- A source of tokens, which ends. -/
class TokenSource (σ : Type) where
  /-- The next token, left in place. -/
  peek : σ → Token × σ
  /-- The next token, taken. -/
  take : σ → Token × σ
  /-- Put an event into the log, if there is one. -/
  note : Event → σ → σ
  /-- A bound on the tokens ahead, the end of input not counted. -/
  size : σ → Nat
  fst_peek : ∀ s, (peek s).1 = (take s).1
  take_peek : ∀ s, take (peek s).2 = take s
  size_peek_le : ∀ s, size (peek s).2 ≤ size s
  size_take_le : ∀ s, size (take s).2 ≤ size s
  size_take_lt : ∀ s, (take s).1.isEnd = false → size (take s).2 < size s
  size_note_le : ∀ e s, size (note e s) ≤ size s

instance : TokenSource Scanner where
  peek := Scanner.peek
  take := Scanner.take
  note _ s := s
  size := Scanner.size
  fst_peek := Scanner.fst_peek
  take_peek := Scanner.take_peek
  size_peek_le := Scanner.size_peek_le
  size_take_le := Scanner.size_take_le
  size_take_lt _ h := Scanner.size_take_lt h
  size_note_le _ _ := Nat.le_refl _

/-! ## Scanning with a log -/

/-- A scanner with a log of events, the latest first. -/
structure LoggedScanner where
  scanner : Scanner
  log : List Event

namespace LoggedScanner

/-- A scanner at the start of a text, with an empty log. -/
def ofString (text : String) : LoggedScanner := ⟨.ofString text, []⟩

/-- The events so far, in the order in which they happened. -/
def events (s : LoggedScanner) : List Event := s.log.reverse

/-- The log once the next token `t` has been asked for: if `t` had to be scanned for it and is
unknown, that is an event. -/
def logNext (s : LoggedScanner) (t : Token) : List Event :=
  if s.scanner.pending.isNone && t.kind = .unknown then .unknownToken t :: s.log else s.log

/-- The next token, left in place. -/
def peek (s : LoggedScanner) : Token × LoggedScanner :=
  let r := s.scanner.peek
  (r.1, ⟨r.2, s.logNext r.1⟩)

/-- The next token, taken. -/
def take (s : LoggedScanner) : Token × LoggedScanner :=
  let r := s.scanner.take
  (r.1, ⟨r.2, s.logNext r.1⟩)

theorem take_peek (s : LoggedScanner) : s.peek.2.take = s.take := by
  rcases s with ⟨⟨_, _, _ | _, _⟩, _⟩ <;> rfl

instance : TokenSource LoggedScanner where
  peek := peek
  take := take
  note e s := { s with log := e :: s.log }
  size s := s.scanner.size
  fst_peek s := s.scanner.fst_peek
  take_peek := take_peek
  size_peek_le s := s.scanner.size_peek_le
  size_take_le s := s.scanner.size_take_le
  size_take_lt _ h := Scanner.size_take_lt h
  size_note_le _ _ := Nat.le_refl _

end LoggedScanner

/-! ## Tokens in a list -/

/-- Tokens in a list, with the position of the end of input behind them. -/
structure Tape where
  upcoming : List Token
  finish : Location
  deriving DecidableEq

namespace Tape

/-- The next token, left in place. -/
def peek (s : Tape) : Token × Tape :=
  match s.upcoming with
  | [] => (.endOfInput s.finish, s)
  | t :: _ => (t, s)

/-- The next token, taken. -/
def take (s : Tape) : Token × Tape :=
  match s.upcoming with
  | [] => (.endOfInput s.finish, s)
  | t :: ts => (t, { s with upcoming := ts })

instance : TokenSource Tape where
  peek := peek
  take := take
  note _ s := s
  size s := s.upcoming.length
  fst_peek s := by rcases s with ⟨_ | _, _⟩ <;> rfl
  take_peek s := by rcases s with ⟨_ | _, _⟩ <;> rfl
  size_peek_le s := by rcases s with ⟨_ | _, _⟩ <;> exact Nat.le_refl _
  size_take_le s := by
    rcases s with ⟨_ | ⟨t, ts⟩, _⟩
    · exact Nat.le_refl _
    · exact Nat.le_succ _
  size_take_lt s h := by
    rcases s with ⟨_ | ⟨t, ts⟩, _⟩
    · simp [take, Token.endOfInput, Token.isEnd] at h
    · exact Nat.lt_succ_self _
  size_note_le _ _ := Nat.le_refl _

end Tape

end SqlScript
