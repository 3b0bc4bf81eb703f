/-!
# The fixed words of the language

Data types, keywords, punctuation marks and comparison operators, each with the spelling that a
script uses and the name that reports use. Spellings are case-sensitive: `select` is no keyword.
The lookups `Keyword.ofSpelling?` and `Mark.ofChar?` invert the spellings.
-/

namespace SqlScript

/-- The types of a column, and of a literal. -/
inductive DataType
  | int
  | real
  | text
  deriving DecidableEq

namespace DataType

/-- Every data type. -/
def all : List DataType := [int, real, text]

/-- The keyword that declares the type. -/
def spelling : DataType → String
  | int => "INT"
  | real => "REAL"
  | text => "TEXT"

/-- The name of the type in reports. -/
def name : DataType → String
  | int => "Int"
  | real => "Real"
  | text => "Text"

end DataType

/-- The words that a script may not use as names. -/
inductive Keyword
  | select
  | from_
  | drop
  | table
  | insert
  | into
  | values
  | delete
  | where_
  | create
  | type (t : DataType)
  deriving DecidableEq

namespace Keyword

/-- Every keyword. -/
def all : List Keyword :=
  [select, from_, drop, table, insert, into, values, delete, where_, create,
    type .int, type .real, type .text]

/-- The keyword as a script spells it. -/
def spelling : Keyword → String
  | select => "SELECT"
  | from_ => "FROM"
  | drop => "DROP"
  | table => "TABLE"
  | insert => "INSERT"
  | into => "INTO"
  | values => "VALUES"
  | delete => "DELETE"
  | where_ => "WHERE"
  | create => "CREATE"
  | type t => t.spelling

/-- The name of the keyword in reports. -/
def name : Keyword → String
  | select => "KwSelect"
  | from_ => "KwFrom"
  | drop => "KwDrop"
  | table => "KwTable"
  | insert => "KwInsert"
  | into => "KwInto"
  | values => "KwValues"
  | delete => "KwDelete"
  | where_ => "KwWhere"
  | create => "KwCreate"
  | type t => "Kw" ++ t.name

/-- The keyword with the given spelling, if there is one. -/
def ofSpelling? (w : String) : Option Keyword := all.find? (fun k => k.spelling == w)

theorem mem_all (k : Keyword) : k ∈ all := by
  cases k with
  | type t => cases t <;> decide
  | _ => decide

theorem ofSpelling?_spelling (k : Keyword) : ofSpelling? k.spelling = some k := by
  cases k with
  | type t => cases t <;> decide
  | _ => decide

theorem spelling_of_ofSpelling? {w : String} {k : Keyword} (h : ofSpelling? w = some k) :
    k.spelling = w := by
  simpa using List.find?_some h

end Keyword

/-- Punctuation marks. -/
inductive Mark
  | semicolon
  | comma
  | leftParen
  | rightParen
  deriving DecidableEq

namespace Mark

/-- Every mark. -/
def all : List Mark := [semicolon, comma, leftParen, rightParen]

/-- The character of the mark. -/
def char : Mark → Char
  | semicolon => ';'
  | comma => ','
  | leftParen => '('
  | rightParen => ')'

/-- The name of the mark in reports. -/
def name : Mark → String
  | semicolon => "Semicolon"
  | comma => "Comma"
  | leftParen => "LParen"
  | rightParen => "RParen"

/-- The mark with the given character, if there is one. -/
def ofChar? (c : Char) : Option Mark := all.find? (fun m => m.char == c)

theorem ofChar?_char (m : Mark) : ofChar? m.char = some m := by
  cases m <;> decide

theorem char_of_ofChar? {c : Char} {m : Mark} (h : ofChar? c = some m) : m.char = c := by
  simpa using List.find?_some h

end Mark

/-- Comparison operators. -/
inductive Comparison
  | less
  | greater
  | equal
  | lessEqual
  | greaterEqual
  | notEqual
  deriving DecidableEq

namespace Comparison

/-- Every operator. -/
def all : List Comparison := [less, greater, equal, lessEqual, greaterEqual, notEqual]

/-- The operator as a script spells it. -/
def spelling : Comparison → String
  | less => "<"
  | greater => ">"
  | equal => "="
  | lessEqual => "<="
  | greaterEqual => ">="
  | notEqual => "!="

/-- The name of the operator in reports. -/
def name : Comparison → String
  | less => "Lt"
  | greater => "Rt"
  | equal => "Eq"
  | lessEqual => "Lte"
  | greaterEqual => "Rte"
  | notEqual => "Neq"

end Comparison

end SqlScript
