import SqlScript.Scan

/-!
# Tokens on demand

A scanner holds the text still to be scanned and at most one token that has been looked at and not
taken. `Scanner.take` hands out the next token, `Scanner.peek` shows it without taking it, and at
the end of the text both give the end-of-input token for ever. Reading through `Scanner.next?`
stops instead: it gives the end-of-input token once and then nothing.

A scanner is a value, so a copy of it is a saved position. `Scanner.size` bounds the tokens ahead;
taking a token other than the end lowers it (`Scanner.size_take_lt`), which is why draining a
scanner ends.
-/

namespace SqlScript

/-- The state of reading a text token by token. -/
structure Scanner where
  /-- The text that has not been scanned yet. -/
  rest : List Char
  /-- The position of that text. -/
  location : Location
  /-- A token that has been scanned and not taken. -/
  pending : Option Token
  /-- Whether `next?` has given the end-of-input token. -/
  exhausted : Bool

namespace Scanner

/-- A scanner at the start of a text. -/
def ofString (text : String) : Scanner := ⟨text.toList, .start, none, false⟩

/-- The next token, taken. -/
def take (s : Scanner) : Token × Scanner :=
  match s.pending with
  | some t => (t, { s with pending := none })
  | none =>
    let x := scan s.location s.rest
    (x.token, { s with rest := x.rest, location := x.location })

/-- The next token, left in place. -/
def peek (s : Scanner) : Token × Scanner :=
  match s.pending with
  | some t => (t, s)
  | none =>
    let r := s.take
    (r.1, { r.2 with pending := some r.1 })

/-- Looking at a token shows the one that would be taken. -/
theorem fst_peek (s : Scanner) : s.peek.1 = s.take.1 := by
  rcases s with ⟨_, _, _ | _, _⟩ <;> rfl

/-- Looking at a token first changes nothing about taking it. -/
theorem take_peek (s : Scanner) : s.peek.2.take = s.take := by
  rcases s with ⟨_, _, _ | _, _⟩ <;> rfl

/-- A bound on the tokens ahead, the end of the text not counted. -/
def size (s : Scanner) : Nat :=
  s.rest.length + match s.pending with
    | some t => if t.isEnd then 0 else 1
    | none => 0

theorem size_take_le (s : Scanner) : s.take.2.size ≤ s.size := by
  rcases s with ⟨rest, l, _ | t, _⟩
  · exact length_rest_scan_le l rest
  · exact Nat.le_add_right _ _

theorem size_take_lt {s : Scanner} (h : s.take.1.isEnd = false) : s.take.2.size < s.size := by
  rcases s with ⟨rest, l, _ | t, _⟩
  · exact length_rest_scan_lt h
  · simp [take] at h
    simp [size, take, h]

theorem size_peek_le (s : Scanner) : s.peek.2.size ≤ s.size := by
  rcases s with ⟨rest, l, _ | t, _⟩
  · cases h : (scan l rest).token.isEnd
    · simpa [size, peek, take, h] using Nat.succ_le_of_lt (length_rest_scan_lt h)
    · simpa [size, peek, take, h] using length_rest_scan_le l rest
  · exact Nat.le_refl _

/-! ## Draining -/

/-- Every token up to the end of the text, added to `acc`. -/
def drainOnto (acc : Array Token) (s : Scanner) : Array Token × Scanner :=
  let r := s.take
  if r.1.isEnd then (acc.push r.1, r.2) else drainOnto (acc.push r.1) r.2
termination_by s.size
decreasing_by next h => exact size_take_lt (by simpa using h)

/-- Every token up to and with the end of the text, taken. -/
def drain (s : Scanner) : List Token × Scanner :=
  let (ts, s') := s.drainOnto #[]
  (ts.toList, s')

/-- The next token, or nothing once the end of the text has been given this way. -/
def next? (s : Scanner) : Option Token × Scanner :=
  if s.exhausted then (none, s)
  else
    let r := s.take
    (some r.1, { r.2 with exhausted := r.1.isEnd })

/-- A bound on the tokens that `next?` still gives. -/
def ahead (s : Scanner) : Nat := if s.exhausted then 0 else s.size + 1

theorem ahead_next?_lt {s : Scanner} {t : Token} (h : s.next?.1 = some t) :
    s.next?.2.ahead < s.ahead := by
  unfold next? at h ⊢
  split at h
  · simp at h
  · next he =>
    cases ht : s.take.1.isEnd
    · simpa [ahead, he, ht, size] using size_take_lt ht
    · simp [ahead, he, ht]

/-- The tokens that `next?` still gives, added to `acc`. -/
def iterateOnto (acc : Array Token) (s : Scanner) : Array Token × Scanner :=
  let r := s.next?
  match _h : r.1 with
  | none => (acc, r.2)
  | some t => iterateOnto (acc.push t) r.2
termination_by s.ahead
decreasing_by exact ahead_next?_lt _h

/-- The tokens that `next?` still gives, taken. -/
def iterate (s : Scanner) : List Token × Scanner :=
  let (ts, s') := s.iterateOnto #[]
  (ts.toList, s')

end Scanner

end SqlScript
