/-!
# Positions in a text

A position is a byte offset together with a line and a column. Offsets count UTF-8 bytes from
zero; lines and columns count from one, columns in characters, and only a line feed ends a line.
The position after a text is reached character by character (`Location.after`), so positions
compose along `++` (`Location.after_append`).
-/

namespace SqlScript

/-- A position in a text: the bytes before it, its line and its column. -/
structure Location where
  offset : Nat
  line : Nat
  column : Nat
  deriving DecidableEq

namespace Location

/-- The position of the first character of a text. -/
def start : Location := ⟨0, 1, 1⟩

/-- The position just after the character `c` at `l`. -/
def next (l : Location) (c : Char) : Location :=
  if c = '\n' then ⟨l.offset + c.utf8Size, l.line + 1, 1⟩
  else ⟨l.offset + c.utf8Size, l.line, l.column + 1⟩

/-- The position just after the characters `cs` at `l`. -/
def after (l : Location) (cs : List Char) : Location := cs.foldl next l

@[simp] theorem after_nil (l : Location) : l.after [] = l := rfl

@[simp] theorem after_cons (l : Location) (c : Char) (cs : List Char) :
    l.after (c :: cs) = (l.next c).after cs := rfl

theorem after_append (l : Location) (cs ds : List Char) :
    l.after (cs ++ ds) = (l.after cs).after ds := by
  simp [after, List.foldl_append]

/-- A position as it is shown: line and column, without the offset. -/
def display (l : Location) : String := toString l.line ++ ":" ++ toString l.column

end Location

end SqlScript
