import SqlScript.Rule

/-!
# The grammar of statements

One rule for each phrase of the language. A rule that fails leaves the token it could not accept
in place, and a statement ends with its semicolon.

What a single token means is decided by a function on tokens: `Value.ofToken`, `Operand.ofToken`,
`Comparison.ofToken` and `DataType.ofToken` give the meaning of a token or what they would have
accepted instead. An integer that does not fit 32 bits, and a real whose nearest single-precision
number is infinite, are no values.
-/

namespace SqlScript

/-- The literal that a token writes. -/
def Value.ofToken (t : Token) : Except Expectation Value :=
  match t.kind with
  | .literal .int =>
    match Numeral.integer? t.text.toList with
    | some n => .ok (.integer n)
    | none => .error .integerInRange
  | .literal .real =>
    match Numeral.real? t.text.toList with
    | some x => .ok (.real x)
    | none => .error .realInRange
  | .literal .text => .ok (.text t.text)
  | _ => .error .value

/-- The operand that a token writes: an identifier names a column, a literal is a value. -/
def Operand.ofToken (t : Token) : Except Expectation Operand :=
  match t.kind with
  | .identifier => .ok (.column t.text)
  | .literal _ => (Value.ofToken t).map .value
  | _ => .error .operand

/-- The operator that a token writes. -/
def Comparison.ofToken (t : Token) : Except Expectation Comparison :=
  match t.kind with
  | .comparison c => .ok c
  | _ => .error .comparison

/-- The type of a column that a token writes. -/
def DataType.ofToken (t : Token) : Except Expectation DataType :=
  match t.kind with
  | .keyword (.type d) => .ok d
  | _ => .error .columnType

namespace Grammar

open Rule

variable {σ : Type} [TokenSource σ] {α : Type}

/-! ## Words and lists -/

/-- A name. -/
def name : Rule σ String := expect .identifier

theorem name_advances : (name (σ := σ)).AdvancesOn (fun _ => True) :=
  expect_advances (by decide)

/-- One more `item` if a comma stands in front of it, otherwise nothing. -/
def nextItem (item : Rule σ α) : Rule σ (Option α) := do
  if ← accept (.mark .comma) then some <$> item else pure none

theorem nextItem_advances (item : Rule σ α) : (nextItem item).Advances := by
  refine AdvancesOn.bind (accept_advances (by decide)) fun b hb => ?_
  simp only [Bool.not_eq_true] at hb
  subst hb
  exact AdvancesOn.pure (by simp)

/-- One or more of `item`, with commas between them. -/
def commaList (item : Rule σ α) : Rule σ (List α) := do
  let a ← item
  let as ← collect (nextItem item) (nextItem_advances item)
  pure (a :: as)

/-- One more column to select, unless `FROM` follows. -/
def nextSelected : Rule σ (Option String) := do
  if (← look).kind = .keyword .from_ then pure none else some <$> name

theorem nextSelected_advances : (nextSelected (σ := σ)).Advances := by
  refine AdvancesOn.bind_right fun t => ?_
  split
  · exact AdvancesOn.pure (by simp)
  · exact name_advances.map some fun _ _ => trivial

/-- The columns to select: one or more names, up to `FROM`. -/
def selected : Rule σ (List String) := do
  let c ← name
  let cs ← collect nextSelected nextSelected_advances
  pure (c :: cs)

/-! ## Values and conditions -/

/-- A literal. -/
def value : Rule σ Value := token Value.ofToken

/-- A literal or the name of a column. -/
def operand : Rule σ Operand := token Operand.ofToken

/-- A comparison operator. -/
def comparison : Rule σ Comparison := token Comparison.ofToken

/-- A comparison of two operands. -/
def condition : Rule σ Condition := do
  let left ← operand
  let c ← comparison
  let right ← operand
  pure ⟨left, c, right⟩

/-- A condition after `WHERE`, or nothing. -/
def whereClause : Rule σ (Option Condition) := do
  if ← accept (.keyword .where_) then some <$> condition else pure none

/-- The name and the type of a column. -/
def column : Rule σ Column := do
  let n ← name
  let d ← token DataType.ofToken
  pure ⟨n, d⟩

/-! ## Statements -/

/-- `CREATE TABLE name (column, …);` -/
def createTable : Rule σ Statement := do
  let _ ← expect (.keyword .create)
  let _ ← expect (.keyword .table)
  let table ← name
  let _ ← expect (.mark .leftParen)
  let columns ← commaList column
  let _ ← expect (.mark .rightParen)
  let _ ← expect (.mark .semicolon)
  pure (.createTable table columns)

/-- `SELECT name … FROM name WHERE condition;`, the condition being optional -/
def select : Rule σ Statement := do
  let _ ← expect (.keyword .select)
  let columns ← selected
  let _ ← expect (.keyword .from_)
  let table ← name
  let c ← whereClause
  let _ ← expect (.mark .semicolon)
  pure (.select columns table c)

/-- `INSERT INTO name (name, …) VALUES (value, …);` -/
def insert : Rule σ Statement := do
  let _ ← expect (.keyword .insert)
  let _ ← expect (.keyword .into)
  let table ← name
  let _ ← expect (.mark .leftParen)
  let columns ← commaList name
  let _ ← expect (.mark .rightParen)
  let _ ← expect (.keyword .values)
  let _ ← expect (.mark .leftParen)
  let values ← commaList value
  let _ ← expect (.mark .rightParen)
  let _ ← expect (.mark .semicolon)
  pure (.insert table columns values)

/-- `DELETE FROM name WHERE condition;`, the condition being optional -/
def delete : Rule σ Statement := do
  let _ ← expect (.keyword .delete)
  let _ ← expect (.keyword .from_)
  let table ← name
  let c ← whereClause
  let _ ← expect (.mark .semicolon)
  pure (.delete table c)

/-- `DROP TABLE name;` -/
def dropTable : Rule σ Statement := do
  let _ ← expect (.keyword .drop)
  let _ ← expect (.keyword .table)
  let table ← name
  let _ ← expect (.mark .semicolon)
  pure (.dropTable table)

/-- A statement. Its first word says which. -/
def statement : Rule σ Statement := do
  let t ← look
  match t.kind with
  | .keyword .create => createTable
  | .keyword .select => select
  | .keyword .insert => insert
  | .keyword .delete => delete
  | .keyword .drop => dropTable
  | _ => fail .statement t

end Grammar

end SqlScript
