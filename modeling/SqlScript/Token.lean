import SqlScript.Location
import SqlScript.Vocabulary

/-!
# Tokens

A token is a piece of text with its kind and the position where it starts. Kinds carry the word
they stand for, so that a rule of the grammar can ask for one keyword or for any comparison. The
end of a text is a token too, with a text of its own, and so is a piece that fits no kind.
-/

namespace SqlScript

/-- The kinds of tokens. -/
inductive Kind
  | keyword (k : Keyword)
  | mark (m : Mark)
  | comparison (c : Comparison)
  /-- A word that is no keyword. -/
  | identifier
  /-- A number, or a text in double quotes. -/
  | literal (t : DataType)
  /-- The end of the text. -/
  | endOfInput
  /-- A piece of text that fits no other kind. -/
  | unknown
  deriving DecidableEq

namespace Kind

/-- Every kind. -/
def all : List Kind :=
  Keyword.all.map keyword ++ Mark.all.map mark ++ Comparison.all.map comparison ++ [identifier] ++
    DataType.all.map literal ++ [endOfInput, unknown]

/-- The name of the kind in reports. -/
def name : Kind → String
  | keyword k => k.name
  | mark m => m.name
  | comparison c => c.name
  | identifier => "Id"
  | literal t => t.name
  | endOfInput => "Eof"
  | unknown => "Unknown"

end Kind

/-- A piece of text, its kind and where it starts. -/
structure Token where
  kind : Kind
  text : String
  location : Location
  deriving DecidableEq

namespace Token

/-- The token that stands for the end of a text. -/
def endOfInput (l : Location) : Token := ⟨.endOfInput, "<EOF>", l⟩

/-- Whether the token is an end of text. -/
def isEnd (t : Token) : Bool := t.kind = .endOfInput

/-- A token as it is shown: its kind, its text in quotes and its position. -/
def display (t : Token) : String :=
  t.kind.name ++ " '" ++ t.text ++ "' Loc=" ++ t.location.display

end Token

end SqlScript
