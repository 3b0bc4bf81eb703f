import SqlScript.Outcome

/-!
# Sessions

A session is one scanner under a sequence of steps, with a stack of saved copies. Saving puts a
copy of the scanner on the stack and restoring goes back to the copy saved last. Parsing reads a
copy to its end, so the scanner itself stays where it is.
-/

namespace SqlScript

/-- What can be asked of a session. -/
inductive Step
  /-- The next token, taken. -/
  | get
  /-- The next token, left in place. -/
  | peek
  /-- The next token, or nothing if the end of the text has been given this way. -/
  | next
  /-- Every token up to the end of the text, taken. -/
  | tokenize
  /-- Every token that `next` still gives. -/
  | rest
  /-- Save a copy of the scanner. -/
  | save
  /-- Go back to the copy saved last, if there is one. -/
  | restore
  /-- The outcome of reading the rest of the text as a script. -/
  | parse
  deriving DecidableEq

/-- What a step answers. -/
inductive Answer
  | token (t : Token)
  /-- A token, or nothing. -/
  | optional (t : Option Token)
  | tokens (ts : List Token)
  /-- The number of saved copies. -/
  | saved (depth : Nat)
  | outcome (o : Outcome)

/-- A scanner and the saved copies of it, the latest first. -/
structure Session where
  scanner : Scanner
  saved : List Scanner

namespace Session

/-- A session at the start of a text. -/
def ofString (text : String) : Session := ⟨.ofString text, []⟩

/-- The answer to one step, and the session after it. -/
def step (s : Session) : Step → Answer × Session
  | .get =>
    let r := s.scanner.take
    (.token r.1, { s with scanner := r.2 })
  | .peek =>
    let r := s.scanner.peek
    (.token r.1, { s with scanner := r.2 })
  | .next =>
    let r := s.scanner.next?
    (.optional r.1, { s with scanner := r.2 })
  | .tokenize =>
    let r := s.scanner.drain
    (.tokens r.1, { s with scanner := r.2 })
  | .rest =>
    let r := s.scanner.iterate
    (.tokens r.1, { s with scanner := r.2 })
  | .save => (.saved (s.saved.length + 1), { s with saved := s.scanner :: s.saved })
  | .restore =>
    match s.saved with
    | [] => (.saved 0, s)
    | c :: cs => (.saved cs.length, ⟨c, cs⟩)
  | .parse => (.outcome (SqlScript.parse s.scanner).1, s)

/-- The answers to a sequence of steps. -/
def run (s : Session) : List Step → List Answer
  | [] => []
  | st :: sts =>
    let r := s.step st
    r.1 :: r.2.run sts

end Session

end SqlScript
