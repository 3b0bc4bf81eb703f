import SqlScript.Token

/-!
# The lexeme at the front of a text

`Lexeme.first c cs` cuts the first lexeme off the non-empty text `c :: cs`: its kind, its
characters and the text that follows. The first character decides the class of the lexeme, the
class how far it reaches. Cutting loses nothing (`Lexeme.first_append`) and always takes at least
one character (`Lexeme.first_chars_ne_nil`), so what follows is shorter
(`Lexeme.length_rest_first_lt`).

Letters and digits are the ASCII ones, and a blank is a space, a tab, a line feed, a form feed or
a carriage return.
-/

namespace SqlScript

/-- The characters that may stand between tokens. -/
def isBlank (c : Char) : Bool :=
  c = ' ' || c = '\t' || c = '\n' || c = '\x0c' || c = '\r'

/-- The characters that may stand inside a quoted text. -/
def isQuotable (c : Char) : Bool := c ≠ '"' && c ≠ '\n'

/-- The characters that may stand in front of a number. -/
def isSign (c : Char) : Bool := c = '+' || c = '-'

/-- A front piece of a text: its kind, its characters and the text after it. -/
structure Lexeme where
  kind : Kind
  chars : List Char
  rest : List Char

namespace Lexeme

/-- The kind of a word: the keyword it spells, otherwise an identifier. -/
def wordKind (w : List Char) : Kind :=
  match Keyword.ofSpelling? (String.ofList w) with
  | some k => .keyword k
  | none => .identifier

/-- The letters and digits at the front, as a word. -/
def word (cs : List Char) : Lexeme :=
  let w := cs.takeWhile Char.isAlphanum
  ⟨wordKind w, w, cs.dropWhile Char.isAlphanum⟩

/-- The integer part at the front of a number, and what follows it. A leading zero is a whole
integer part. -/
def wholePart : List Char → List Char × List Char
  | '0' :: r => (['0'], r)
  | cs => (cs.takeWhile Char.isDigit, cs.dropWhile Char.isDigit)

/-- The number at the front of `cs`, written with the sign characters `sign`. A point makes it a
real, whether or not digits follow it. -/
def number (sign cs : List Char) : Lexeme :=
  match wholePart cs with
  | (whole, '.' :: r) =>
    ⟨.literal .real, sign ++ whole ++ '.' :: r.takeWhile Char.isDigit, r.dropWhile Char.isDigit⟩
  | (whole, r) => ⟨.literal .int, sign ++ whole, r⟩

/-- What a sign starts: a number if a digit follows, otherwise an unknown piece. -/
def signed (sign : Char) : List Char → Lexeme
  | [] => ⟨.unknown, [sign], []⟩
  | d :: r => if d.isDigit then number [sign] (d :: r) else ⟨.unknown, [sign], d :: r⟩

/-- What an opening quote starts, `cs` being the text after the quote: a literal up to the next
quote of the line, or an unknown piece up to the end of the line if the line has no other quote. -/
def quoted (cs : List Char) : Lexeme :=
  let body := cs.takeWhile isQuotable
  match cs.dropWhile isQuotable with
  | '"' :: r => ⟨.literal .text, '"' :: (body ++ ['"']), r⟩
  | r => ⟨.unknown, '"' :: body, r⟩

/-- The comparison operator that starts with `c`, or `c` alone as an unknown piece. -/
def operator : Char → List Char → Lexeme
  | '<', '=' :: r => ⟨.comparison .lessEqual, ['<', '='], r⟩
  | '>', '=' :: r => ⟨.comparison .greaterEqual, ['>', '='], r⟩
  | '!', '=' :: r => ⟨.comparison .notEqual, ['!', '='], r⟩
  | '<', r => ⟨.comparison .less, ['<'], r⟩
  | '>', r => ⟨.comparison .greater, ['>'], r⟩
  | '=', r => ⟨.comparison .equal, ['='], r⟩
  | c, r => ⟨.unknown, [c], r⟩

/-- The first lexeme of the text `c :: cs`. -/
def first (c : Char) (cs : List Char) : Lexeme :=
  match Mark.ofChar? c with
  | some m => ⟨.mark m, [c], cs⟩
  | none =>
    if c.isAlpha then word (c :: cs)
    else if c.isDigit then number [] (c :: cs)
    else if isSign c then signed c cs
    else if c = '"' then quoted cs
    else operator c cs

/-! ## Cutting loses nothing -/

theorem word_append (cs : List Char) : (word cs).chars ++ (word cs).rest = cs :=
  List.takeWhile_append_dropWhile

theorem wholePart_append (cs : List Char) : (wholePart cs).1 ++ (wholePart cs).2 = cs := by
  unfold wholePart
  split
  · rfl
  · exact List.takeWhile_append_dropWhile

theorem number_append (sign cs : List Char) :
    (number sign cs).chars ++ (number sign cs).rest = sign ++ cs := by
  have h := wholePart_append cs
  unfold number
  split
  · next whole r hw =>
    rw [hw] at h
    rw [← h]
    simp
  · next whole r _ hw =>
    rw [hw] at h
    rw [← h]
    simp

theorem signed_append (c : Char) (cs : List Char) :
    (signed c cs).chars ++ (signed c cs).rest = c :: cs := by
  unfold signed
  split
  · rfl
  · split
    · exact number_append _ _
    · rfl

theorem quoted_append (cs : List Char) : (quoted cs).chars ++ (quoted cs).rest = '"' :: cs := by
  have h := List.takeWhile_append_dropWhile (p := isQuotable) (l := cs)
  unfold quoted
  dsimp only
  split
  · next r hr => rw [hr] at h; simp [h]
  · simp [h]

theorem operator_append (c : Char) (cs : List Char) :
    (operator c cs).chars ++ (operator c cs).rest = c :: cs := by
  unfold operator
  split <;> rfl

theorem first_append (c : Char) (cs : List Char) :
    (first c cs).chars ++ (first c cs).rest = c :: cs := by
  unfold first
  split
  · rfl
  · split
    · exact word_append _
    split
    · exact number_append _ _
    split
    · exact signed_append _ _
    split
    · next h => subst h; exact quoted_append cs
    · exact operator_append _ _

/-! ## Cutting makes progress -/

theorem number_chars_ne_nil {c : Char} (h : c.isDigit) (sign cs : List Char) :
    (number sign (c :: cs)).chars ≠ [] := by
  have hw : (wholePart (c :: cs)).1 ≠ [] := by
    unfold wholePart
    split
    · simp
    · simp [h]
  unfold number
  split <;> simp_all

theorem first_chars_ne_nil (c : Char) (cs : List Char) : (first c cs).chars ≠ [] := by
  unfold first
  split
  · simp
  · split
    · next h => simp [word, Char.isAlphanum, h]
    split
    · next h => exact number_chars_ne_nil h _ _
    split
    · unfold signed
      split
      · simp
      · split
        · next h => exact number_chars_ne_nil h _ _
        · simp
    split
    · unfold quoted
      dsimp only
      split <;> simp
    · unfold operator
      split <;> simp

theorem length_rest_first_lt (c : Char) (cs : List Char) :
    (first c cs).rest.length < (c :: cs).length := by
  have h := congrArg List.length (first_append c cs)
  have hpos := List.length_pos_iff.2 (first_chars_ne_nil c cs)
  simp only [List.length_append] at h
  omega

end Lexeme

end SqlScript
