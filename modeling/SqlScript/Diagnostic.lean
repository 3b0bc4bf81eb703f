import SqlScript.Token

/-!
# Syntax errors

A rule of the grammar that cannot go on says what it was prepared to accept and which token it
found instead; that is a `SyntaxError`. What it was prepared to accept is an `Expectation`, one of
a few classes. A `Diagnostic` is the report of an error, in words: it holds the description of
what was expected, and the kind, the text and the position of the token found.
-/

namespace SqlScript

/-- The report of an unexpected token. -/
structure Diagnostic where
  /-- What would have been accepted, in words. -/
  expected : String
  found : Kind
  lexeme : String
  location : Location
  deriving DecidableEq

namespace Diagnostic

/-- The report that `token` stands where `expected` would have been accepted. -/
def unexpected (expected : String) (token : Token) : Diagnostic :=
  ⟨expected, token.kind, token.text, token.location⟩

/-- The report as one line of text. -/
def message (d : Diagnostic) : String :=
  "Expected " ++ d.expected ++ ", got " ++ d.found.name ++ " '" ++ d.lexeme ++ "' " ++
    d.location.display

end Diagnostic

/-- What a rule is prepared to accept at some point. -/
inductive Expectation
  /-- A token of one kind. -/
  | kind (k : Kind)
  /-- The first word of a statement. -/
  | statement
  /-- The type of a column. -/
  | columnType
  /-- A literal. -/
  | value
  /-- A literal or the name of a column. -/
  | operand
  | comparison
  /-- An integer that fits 32 bits. -/
  | integerInRange
  /-- A real whose nearest single-precision number is finite. -/
  | realInRange
  deriving DecidableEq

/-- The expectation in words. -/
def Expectation.description : Expectation → String
  | kind k => k.name
  | statement => "CREATE, SELECT, INSERT, DELETE or DROP"
  | columnType => "INT, REAL or TEXT"
  | value => "Int, Real or Text"
  | operand => "Id, Int, Real or Text"
  | comparison => "Lt, Rt, Eq, Lte, Rte or Neq"
  | integerInRange => "Int in 32-bit range"
  | realInRange => "Real in 32-bit range"

/-- The failure of a rule: what it would have accepted, and the token that stood there. -/
structure SyntaxError where
  expected : Expectation
  token : Token
  deriving DecidableEq

namespace SyntaxError

/-- The report of a failure. -/
def diagnostic (e : SyntaxError) : Diagnostic := .unexpected e.expected.description e.token

/-- The report of a failure as one line of text. -/
def message (e : SyntaxError) : String := e.diagnostic.message

end SyntaxError

end SqlScript
