import Mathlib.Data.List.Forall2
import SqlScript.Proofs.Derivation

/-!
# The leaves of a statement

The leaves of a statement are its names and its literals, in the order in which a script spells
them. All else in a statement is fixed by its keyword and by the shape of its tree. In a sentence
the leaves are written one by one by the tokens that are identifiers or literals, in the same order
(`Derives.writesLeaves`).
-/

namespace SqlScript

variable {α : Type}

/-! ## Leaves of trees -/

/-- The leaves of a condition. -/
def Condition.leaves (c : Condition) : List Operand := [c.left, c.right]

/-- The leaves of a `WHERE` clause. -/
def Condition.clauseLeaves (c : Option Condition) : List Operand := c.toList.flatMap leaves

/-- The names and the literals of a statement, in the order of its spelling. A name is given as the
operand that it would be. -/
def Statement.leaves : Statement → List Operand
  | createTable table columns => .column table :: columns.map fun c => .column c.name
  | select columns table condition =>
    columns.map .column ++ .column table :: Condition.clauseLeaves condition
  | insert table columns values => .column table :: (columns.map .column ++ values.map .value)
  | delete table condition => .column table :: Condition.clauseLeaves condition
  | dropTable table => [.column table]

/-- The token is an identifier or a literal. -/
def Token.isLeaf (t : Token) : Bool :=
  match t.kind with
  | .identifier => true
  | .literal _ => true
  | _ => false

theorem Token.isLeaf_of_literal {t : Token} {d : DataType} (h : t.kind = .literal d) :
    t.isLeaf = true := by
  simp only [isLeaf, h]

/-! ## Leaves of phrases -/

namespace Phrase

theorem WritesOperand.isLeaf {t : Token} {o : Operand} (h : WritesOperand t o) :
    t.isLeaf = true := by
  cases h with
  | column hk => simp only [Token.isLeaf, hk]
  | value hv =>
    obtain ⟨d, hk⟩ := hv.kind_eq
    exact Token.isLeaf_of_literal hk

/-- The tokens that are leaves write the operands, one by one. -/
def WritesLeaves (p : List Token) (os : List Operand) : Prop :=
  List.Forall₂ WritesOperand (p.filter Token.isLeaf) os

namespace WritesLeaves

variable {p q : List Token} {os os' : List Operand} {t : Token}

theorem nil : WritesLeaves [] [] := List.Forall₂.nil

theorem append (h : WritesLeaves p os) (h' : WritesLeaves q os') :
    WritesLeaves (p ++ q) (os ++ os') := by
  rw [WritesLeaves, List.filter_append]
  exact List.rel_append h h'

/-- Nothing is added by words behind that are no leaves. -/
theorem append_of_nil (h : WritesLeaves p os) (h' : WritesLeaves q []) :
    WritesLeaves (p ++ q) os := by
  rw [← List.append_nil os]
  exact h.append h'

/-- A leaf in front. -/
theorem leaf {o : Operand} (h : WritesOperand t o) (hp : WritesLeaves p os) :
    WritesLeaves (t :: p) (o :: os) := by
  rw [WritesLeaves, List.filter_cons_of_pos h.isLeaf]
  exact .cons h hp

theorem name (h : t.kind = .identifier) (hp : WritesLeaves p os) :
    WritesLeaves (t :: p) (.column t.text :: os) :=
  hp.leaf (.column h)

theorem of_not_isLeaf (h : t.isLeaf = false) (hp : WritesLeaves p os) :
    WritesLeaves (t :: p) os := by
  rw [WritesLeaves, List.filter_cons_of_neg (by simp [h])]
  exact hp

/-- A fixed word in front is no leaf. -/
theorem keyword {k : Keyword} (h : t.kind = .keyword k) (hp : WritesLeaves p os) :
    WritesLeaves (t :: p) os :=
  hp.of_not_isLeaf (by simp only [Token.isLeaf, h])

theorem mark {m : Mark} (h : t.kind = .mark m) (hp : WritesLeaves p os) :
    WritesLeaves (t :: p) os :=
  hp.of_not_isLeaf (by simp only [Token.isLeaf, h])

theorem comparison {c : Comparison} (h : t.kind = .comparison c) (hp : WritesLeaves p os) :
    WritesLeaves (t :: p) os :=
  hp.of_not_isLeaf (by simp only [Token.isLeaf, h])

end WritesLeaves

/-- Whatever a phrase writes has its leaves written by the tokens of the phrase. -/
def Leafwise (D : Phrase α) (f : α → List Operand) : Prop :=
  ∀ p a, D p a → WritesLeaves p (f a)

variable {D E : Phrase α} {g : α → Operand}

/-- A repetition of phrases with one leaf each. -/
theorem Leafwise.repeated (h : Leafwise D fun a => [g a]) : Leafwise (Repeated D) (List.map g) := by
  intro p as hp
  induction hp with
  | nil => exact .nil
  | cons hd _ ih => exact (h _ _ hd).append ih

theorem Leafwise.afterComma (h : Leafwise D fun a => [g a]) :
    Leafwise (AfterComma D) fun a => [g a] := by
  intro _ a hp
  obtain ⟨hc, hd⟩ := hp
  exact (h _ _ hd).mark hc

theorem Leafwise.oneThen (h : Leafwise D fun a => [g a]) (h' : Leafwise E fun a => [g a]) :
    Leafwise (OneThen D E) (List.map g) := by
  intro _ _ hp
  obtain ⟨hd, hs⟩ := hp
  exact (h _ _ hd).append (h'.repeated _ _ hs)

theorem Leafwise.commaList (h : Leafwise D fun a => [g a]) :
    Leafwise (CommaList D) (List.map g) :=
  h.oneThen h.afterComma

theorem leafwise_name : Leafwise Name fun n => [.column n] := by
  intro _ _ hp
  obtain ⟨hk, rfl⟩ := hp
  exact .name hk .nil

theorem leafwise_value : Leafwise OfValue fun v => [.value v] := by
  intro _ _ hp
  obtain ⟨hv⟩ := hp
  exact .leaf (.value hv) .nil

theorem leafwise_column : Leafwise OfColumn fun c => [.column c.name] := by
  intro _ _ hp
  obtain ⟨hn, hd⟩ := hp
  exact .name hn (.keyword hd .nil)

theorem leafwise_whereClause : Leafwise WhereClause Condition.clauseLeaves := by
  intro _ _ hp
  cases hp with
  | absent => exact .nil
  | present hw hc =>
    obtain ⟨hl, ho, hr⟩ := hc
    exact .keyword hw (.leaf hl (.comparison ho (.leaf hr .nil)))

end Phrase

open Phrase in
/-- **The leaves of a statement are what the leaves of its sentence write**, in order. -/
theorem Derives.writesLeaves {p : List Token} {st : Statement} (h : Derives p st) :
    WritesLeaves p st.leaves := by
  cases h with
  | createTable h₁ h₂ hn hl hp hr he =>
    have hcolumns := (leafwise_column.commaList _ _ hp).append_of_nil (.mark hr (.mark he .nil))
    exact .keyword h₁ (.keyword h₂ (.name hn (.mark hl hcolumns)))
  | select h₁ hp h₂ hn hq he =>
    have hclause := (leafwise_whereClause _ _ hq).append_of_nil (.mark he .nil)
    have hcolumns := leafwise_name.oneThen leafwise_name _ _ hp
    exact .keyword h₁ (hcolumns.append (.keyword h₂ (.name hn hclause)))
  | insert h₁ h₂ hn hl hp hr h₃ hl' hq hr' he =>
    have hvalues := (leafwise_value.commaList _ _ hq).append_of_nil (.mark hr' (.mark he .nil))
    have hcolumns := leafwise_name.commaList _ _ hp
    exact .keyword h₁ (.keyword h₂ (.name hn (.mark hl
      (hcolumns.append (.mark hr (.keyword h₃ (.mark hl' hvalues)))))))
  | delete h₁ h₂ hn hq he =>
    have hclause := (leafwise_whereClause _ _ hq).append_of_nil (.mark he .nil)
    exact .keyword h₁ (.keyword h₂ (.name hn hclause))
  | dropTable h₁ h₂ hn he => exact .keyword h₁ (.keyword h₂ (.name hn (.mark he .nil)))

end SqlScript
