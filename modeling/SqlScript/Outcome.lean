import SqlScript.Recovery
import SqlScript.Statement.Agreement

/-!
# The outcome of reading a script

`parseScript` reads a text and gives the statements that could be read together with the errors
of those that could not; nothing in a text makes it fail. `scriptEvents` gives what happened on
the way. Both come from `parse`, which reads any source of tokens to its end.
-/

namespace SqlScript

open TokenSource

/-- The outcome of reading a script: the statements that were read, and the errors of those that
were not, both in the order of the script. -/
structure Outcome where
  script : Script
  errors : List SyntaxError
  deriving DecidableEq

namespace Outcome

/-- The outcome of a list of attempts. -/
def ofAttempts (as : List Attempt) : Outcome :=
  ⟨⟨as.filterMap Attempt.statement?⟩, as.filterMap Attempt.error?⟩

/-- The reports of the errors. -/
def diagnostics (o : Outcome) : List String := o.errors.map SyntaxError.message

/-- Whether every statement was read. -/
def isOk (o : Outcome) : Bool := o.errors.isEmpty

/-- Two outcomes agree if their scripts do and their reports are the same. -/
def agrees (o p : Outcome) : Bool := o.script.agrees p.script && o.diagnostics = p.diagnostics

end Outcome

variable {σ : Type} [TokenSource σ]

/-- Read the script that a source holds; the log is told the totals at the end. -/
def parse (s : σ) : Outcome × σ :=
  let r := attempts s
  let o := Outcome.ofAttempts r.1
  (o, note (.parsedScript o.script.length o.errors.length) r.2)

/-- Read a script. -/
def parseScript (text : String) : Outcome := (parse (Scanner.ofString text)).1

/-- What happens while a script is read. -/
def scriptEvents (text : String) : List Event := (parse (LoggedScanner.ofString text)).2.events

end SqlScript
