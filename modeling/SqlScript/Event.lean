import SqlScript.Diagnostic
import SqlScript.Statement.Render

/-!
# Events

What can be told about the reading of a script while it goes on: a piece of text that is no
token, a statement that was read, an error that was recovered from, and at the end the totals. A
log holds a `LogRecord` of each event: its level, what it says, and its particulars as fields.
-/

namespace SqlScript

/-- How important an event is. -/
inductive Level
  | trace
  | debug
  deriving DecidableEq

/-- The name of a level in a log. -/
def Level.name : Level → String
  | trace => "TRACE"
  | debug => "DEBUG"

/-- Something that happened while a script was read. -/
inductive Event
  /-- A piece of text that is no token was scanned. -/
  | unknownToken (t : Token)
  /-- A statement was read. -/
  | parsedStatement (s : Statement)
  /-- A statement was given up for an error, and so many tokens were skipped. -/
  | recovered (e : SyntaxError) (skipped : Nat)
  /-- The end of the script was reached after so many statements and errors. -/
  | parsedScript (statements errors : Nat)
  deriving DecidableEq

/-- What a field of a record holds. -/
inductive FieldValue
  | text (s : String)
  | number (n : Nat)
  deriving DecidableEq

/-- An event as it is written to a log. -/
structure LogRecord where
  level : Level
  message : String
  /-- The particulars of the event, by name. -/
  fields : List (String × FieldValue)
  deriving DecidableEq

namespace Event

/-- The importance of an event. -/
def level : Event → Level
  | unknownToken _ => .trace
  | parsedStatement _ => .trace
  | recovered _ _ => .debug
  | parsedScript _ _ => .debug

/-- What an event says, its particulars left out. -/
def message : Event → String
  | unknownToken _ => "unknown token"
  | parsedStatement _ => "parsed statement"
  | recovered _ _ => "recovered from syntax error"
  | parsedScript _ _ => "parsed script"

/-- The particulars of an event, by name. -/
def fields : Event → List (String × FieldValue)
  | unknownToken t => [("text", .text t.text), ("location", .text t.location.display)]
  | parsedStatement s => [("statement", .text s.render)]
  | recovered e n => [("error", .text e.message), ("skipped", .number n)]
  | parsedScript m n => [("statements", .number m), ("errors", .number n)]

/-- The record of an event. -/
def record (e : Event) : LogRecord := ⟨e.level, e.message, e.fields⟩

end Event

end SqlScript
