import SqlScript.Lexeme

/-!
# Scanning one token after another

`scan l cs` skips the blanks at the front of the text `cs`, which stands at position `l`, and cuts
off the next token; at the end of the text that is the end-of-input token. A scan that does not
reach the end leaves a shorter text (`length_rest_scan_lt`), so the tokens of a text form a list
(`tokens`), which ends with the only end-of-input token.
-/

namespace SqlScript

/-- The result of a scan: the token, the position just after it and the text from there on. -/
structure Scan where
  token : Token
  location : Location
  rest : List Char

/-- The next token of the text `cs` at position `l`. -/
def scan (l : Location) (cs : List Char) : Scan :=
  let begin := l.after (cs.takeWhile isBlank)
  match cs.dropWhile isBlank with
  | [] => ⟨.endOfInput begin, begin, []⟩
  | c :: r =>
    let x := Lexeme.first c r
    ⟨⟨x.kind, String.ofList x.chars, begin⟩, begin.after x.chars, x.rest⟩

theorem length_rest_scan_le (l : Location) (cs : List Char) :
    (scan l cs).rest.length ≤ cs.length := by
  have hd := (List.dropWhile_sublist isBlank (l := cs)).length_le
  unfold scan
  split
  · exact Nat.zero_le _
  · next c r h =>
    rw [h] at hd
    exact Nat.le_trans (Nat.le_of_lt (Lexeme.length_rest_first_lt c r)) hd

/-- A scan that does not reach the end uses up some of the text. -/
theorem length_rest_scan_lt {l : Location} {cs : List Char}
    (h : (scan l cs).token.isEnd = false) : (scan l cs).rest.length < cs.length := by
  have hd := (List.dropWhile_sublist isBlank (l := cs)).length_le
  unfold scan at h ⊢
  split at h
  · simp [Token.endOfInput, Token.isEnd] at h
  · next c r hc =>
    rw [hc] at hd
    exact Nat.lt_of_lt_of_le (Lexeme.length_rest_first_lt c r) hd

/-- The tokens of the text `cs` at position `l`, up to and with the end of the text. -/
def tokens (l : Location) (cs : List Char) : List Token :=
  let s := scan l cs
  if s.token.isEnd then [s.token] else s.token :: tokens s.location s.rest
termination_by cs.length
decreasing_by next h => exact length_rest_scan_lt (by simpa using h)

end SqlScript
