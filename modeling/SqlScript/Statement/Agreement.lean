import SqlScript.Statement

/-!
# Agreement of trees

Two trees agree if they have the same shape and the same names, types, operators, integers and
texts, and if their reals are equal as numbers: the two zeros agree, and what is no number agrees
with nothing, not even itself. An integer never agrees with a real.
-/

namespace SqlScript

/-- Agreement of values. -/
def Value.agrees : Value → Value → Bool
  | integer m, integer n => m = n
  | real x, real y => x.agrees y
  | text a, text b => a = b
  | _, _ => false

/-- Agreement of operands. -/
def Operand.agrees : Operand → Operand → Bool
  | column a, column b => a = b
  | value v, value w => v.agrees w
  | _, _ => false

/-- Agreement of conditions. -/
def Condition.agrees (c d : Condition) : Bool :=
  c.left.agrees d.left && c.comparison = d.comparison && c.right.agrees d.right

/-- Agreement of `WHERE` clauses. -/
def Condition.clausesAgree : Option Condition → Option Condition → Bool
  | none, none => true
  | some c, some d => c.agrees d
  | _, _ => false

/-- Agreement of statements. -/
def Statement.agrees : Statement → Statement → Bool
  | createTable t cs, createTable u ds => t = u && cs = ds
  | select cs t c, select ds u d => cs = ds && t = u && Condition.clausesAgree c d
  | insert t cs vs, insert u ds ws => t = u && cs = ds && vs.isEqv ws Value.agrees
  | delete t c, delete u d => t = u && Condition.clausesAgree c d
  | dropTable t, dropTable u => t = u
  | _, _ => false

/-- Agreement of scripts: statement by statement. -/
def Script.agrees (s t : Script) : Bool := s.statements.isEqv t.statements Statement.agrees

end SqlScript
