import SqlScript.Statement

/-!
# Canonical spelling

Every tree has one canonical spelling: keywords in capitals, one space between words, `, ` between
the items of a list in parentheses, a space between the columns of a `SELECT`, a semicolon at the
end. Reals have six places after the point. A script has one statement a line.
-/

namespace SqlScript

/-- The spelling of a value. -/
def Value.render : Value → String
  | integer n => toString n.toInt
  | real x => x.sixPlaces
  | text raw => raw

/-- The spelling of an operand. -/
def Operand.render : Operand → String
  | column name => name
  | value v => v.render

/-- The spelling of a condition. -/
def Condition.render (c : Condition) : String :=
  c.left.render ++ " " ++ c.comparison.spelling ++ " " ++ c.right.render

/-- The spelling of a `WHERE` clause, empty without a condition. -/
def Condition.renderClause : Option Condition → String
  | some c => " WHERE " ++ c.render
  | none => ""

/-- The spelling of a column declaration. -/
def Column.render (c : Column) : String := c.name ++ " " ++ c.type.spelling

/-- The spelling of a statement. -/
def Statement.render : Statement → String
  | createTable table columns =>
    "CREATE TABLE " ++ table ++ " (" ++ ", ".intercalate (columns.map Column.render) ++ ");"
  | select columns table condition =>
    "SELECT " ++ " ".intercalate columns ++ " FROM " ++ table ++
      Condition.renderClause condition ++ ";"
  | insert table columns values =>
    "INSERT INTO " ++ table ++ " (" ++ ", ".intercalate columns ++ ") VALUES (" ++
      ", ".intercalate (values.map Value.render) ++ ");"
  | delete table condition => "DELETE FROM " ++ table ++ Condition.renderClause condition ++ ";"
  | dropTable table => "DROP TABLE " ++ table ++ ";"

/-- The spelling of a script: its statements, each with a line feed after it. -/
def Script.render (s : Script) : String :=
  String.join (s.statements.map (fun st => st.render ++ "\n"))

end SqlScript
