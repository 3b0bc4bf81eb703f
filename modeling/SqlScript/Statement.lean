import SqlScript.Numeral
import SqlScript.Vocabulary

/-!
# Statements

The trees of the language: values, operands, conditions, column declarations, statements and
scripts. Names and quoted texts are kept as they stand in a script, a quoted text with its quotes.

The types hold every tree, also those that no script writes: empty lists, names that are no
words, numbers that are not finite. Such trees can be rendered and compared like any other.
-/

namespace SqlScript

/-- A literal value. -/
inductive Value
  | integer (n : Int32)
  | real (x : Binary32)
  /-- A quoted text, with its quotes. -/
  | text (raw : String)
  deriving DecidableEq

/-- One side of a comparison. -/
inductive Operand
  | column (name : String)
  | value (v : Value)
  deriving DecidableEq

/-- What a `WHERE` clause asks of a row. -/
structure Condition where
  left : Operand
  comparison : Comparison
  right : Operand
  deriving DecidableEq

/-- The declaration of a column. -/
structure Column where
  name : String
  type : DataType
  deriving DecidableEq

/-- A statement. -/
inductive Statement
  | createTable (table : String) (columns : List Column)
  | select (columns : List String) (table : String) (condition : Option Condition)
  | insert (table : String) (columns : List String) (values : List Value)
  | delete (table : String) (condition : Option Condition)
  | dropTable (table : String)
  deriving DecidableEq

/-- The table that a statement is about. -/
def Statement.table : Statement → String
  | createTable table _ => table
  | select _ table _ => table
  | insert table _ _ => table
  | delete table _ => table
  | dropTable table => table

/-- A list of statements. -/
structure Script where
  statements : List Statement
  deriving DecidableEq

namespace Script

/-- The number of statements. -/
def length (s : Script) : Nat := s.statements.length

/-- Whether there is no statement. -/
def isEmpty (s : Script) : Bool := s.statements.isEmpty

end Script

end SqlScript
