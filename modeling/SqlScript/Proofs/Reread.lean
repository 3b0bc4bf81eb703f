import SqlScript.Proofs.SixPlaces
import SqlScript.Proofs.WellFormed
import SqlScript.Statement.Render

/-!
# Trees with their reals read back

Rendering a tree and reading it again can change its reals, and nothing else. `Script.reread` is
the tree with each finite real replaced by the number that its six places read back as. It is
rendered in the same way (`Script.render_reread`), a second replacement changes nothing
(`Script.reread_reread`), and it agrees with the tree itself exactly if each real does with its
replacement (`Script.agrees_reread_iff`).
-/

namespace SqlScript

/-! ## Replacing the reals -/

/-- The value with its real read back. -/
def Value.reread : Value → Value
  | real x => real x.reread
  | integer n => integer n
  | text raw => text raw

/-- The operand with its real read back. -/
def Operand.reread : Operand → Operand
  | column name => column name
  | value v => value v.reread

/-- The condition with its reals read back. -/
def Condition.reread (c : Condition) : Condition := ⟨c.left.reread, c.comparison, c.right.reread⟩

/-- The statement with its reals read back. -/
def Statement.reread : Statement → Statement
  | createTable table columns => createTable table columns
  | select columns table condition => select columns table (condition.map Condition.reread)
  | insert table columns values => insert table columns (values.map Value.reread)
  | delete table condition => delete table (condition.map Condition.reread)
  | dropTable table => dropTable table

/-- The script with its reals read back. -/
def Script.reread (s : Script) : Script := ⟨s.statements.map Statement.reread⟩

/-! ## The same spelling -/

@[simp] theorem Value.render_reread (v : Value) : v.reread.render = v.render := by
  cases v with
  | real x => exact x.sixPlaces_reread
  | _ => rfl

@[simp] theorem Operand.render_reread (o : Operand) : o.reread.render = o.render := by
  cases o with
  | column => rfl
  | value v => exact v.render_reread

@[simp] theorem Condition.render_reread (c : Condition) : c.reread.render = c.render := by
  simp only [reread, render, Operand.render_reread]

@[simp] theorem Condition.renderClause_map_reread (c : Option Condition) :
    renderClause (c.map reread) = renderClause c := by
  cases c with
  | none => rfl
  | some c => simp only [Option.map_some, renderClause, render_reread]

@[simp] theorem Statement.render_reread (st : Statement) : st.reread.render = st.render := by
  unfold render reread
  cases st with
  | select => simp only [Condition.renderClause_map_reread]
  | insert => simp only [List.map_map, Function.comp_def, Value.render_reread]
  | delete => simp only [Condition.renderClause_map_reread]
  | _ => rfl

/-- Reading the reals back does not change the spelling. -/
@[simp] theorem Script.render_reread (s : Script) : s.reread.render = s.render := by
  simp only [reread, render, List.map_map, Function.comp_def, Statement.render_reread]

/-! ## A second time -/

@[simp] theorem Value.reread_reread (v : Value) : v.reread.reread = v.reread := by
  cases v <;> simp [reread]

@[simp] theorem Operand.reread_reread (o : Operand) : o.reread.reread = o.reread := by
  cases o <;> simp [reread]

@[simp] theorem Condition.reread_reread (c : Condition) : c.reread.reread = c.reread := by
  simp [reread]

@[simp] theorem Statement.reread_reread (st : Statement) : st.reread.reread = st.reread := by
  cases st <;> simp [reread, Function.comp_def]

@[simp] theorem Script.reread_reread (s : Script) : s.reread.reread = s.reread := by
  simp [reread, Function.comp_def]

/-! ## Well-formedness -/

theorem Value.wellFormed_reread_iff (v : Value) : v.reread.WellFormed ↔ v.WellFormed := by
  cases v with
  | real x => simp only [reread, WellFormed, x.isFinite_reread]
  | _ => rfl

theorem Operand.wellFormed_reread_iff (o : Operand) : o.reread.WellFormed ↔ o.WellFormed := by
  cases o with
  | column => rfl
  | value v => exact v.wellFormed_reread_iff

theorem Condition.clauseWellFormed_reread_iff (c : Option Condition) :
    ClauseWellFormed (c.map reread) ↔ ClauseWellFormed c := by
  cases c with
  | none => rfl
  | some c =>
    simp [ClauseWellFormed, WellFormed, reread, c.left.wellFormed_reread_iff,
      c.right.wellFormed_reread_iff]

theorem Statement.wellFormed_reread_iff (st : Statement) :
    st.reread.WellFormed ↔ st.WellFormed := by
  cases st with
  | select => simp only [reread, WellFormed, Condition.clauseWellFormed_reread_iff]
  | insert => simp [reread, WellFormed, Value.wellFormed_reread_iff]
  | delete => simp only [reread, WellFormed, Condition.clauseWellFormed_reread_iff]
  | _ => rfl

theorem Script.wellFormed_reread_iff (s : Script) : s.reread.WellFormed ↔ s.WellFormed := by
  simp [reread, WellFormed, Statement.wellFormed_reread_iff]

/-! ## The reals of a tree -/

/-- The reals of a value. -/
def Value.reals : Value → List Binary32
  | real x => [x]
  | _ => []

/-- The reals of an operand. -/
def Operand.reals : Operand → List Binary32
  | column _ => []
  | value v => v.reals

/-- The reals of a condition. -/
def Condition.reals (c : Condition) : List Binary32 := c.left.reals ++ c.right.reals

/-- The reals of a statement. -/
def Statement.reals : Statement → List Binary32
  | select _ _ condition => condition.toList.flatMap Condition.reals
  | insert _ _ values => values.flatMap Value.reals
  | delete _ condition => condition.toList.flatMap Condition.reals
  | _ => []

/-- The reals of a script. -/
def Script.reals (s : Script) : List Binary32 := s.statements.flatMap Statement.reals

theorem Value.isFinite_of_mem_reals {v : Value} (h : v.WellFormed) :
    ∀ x ∈ v.reals, x.isFinite = true := by
  cases v with
  | real x => exact List.forall_mem_singleton.2 h
  | _ => simp [reals]

theorem Operand.isFinite_of_mem_reals {o : Operand} (h : o.WellFormed) :
    ∀ x ∈ o.reals, x.isFinite = true := by
  cases o with
  | column => simp [reals]
  | value v => exact Value.isFinite_of_mem_reals h

theorem Condition.isFinite_of_mem_reals {c : Option Condition} (h : ClauseWellFormed c) :
    ∀ x ∈ c.toList.flatMap reals, x.isFinite = true := by
  cases c with
  | none => simp
  | some c =>
    obtain ⟨hl, hr⟩ := h c rfl
    rw [Option.toList_some, List.flatMap_singleton, reals, List.forall_mem_append]
    exact ⟨Operand.isFinite_of_mem_reals hl, Operand.isFinite_of_mem_reals hr⟩

theorem Statement.isFinite_of_mem_reals {st : Statement} (h : st.WellFormed) :
    ∀ x ∈ st.reals, x.isFinite = true := by
  cases st with
  | select => exact Condition.isFinite_of_mem_reals h.2.2.2
  | insert =>
    exact List.forall_mem_flatMap.2 fun v hv => Value.isFinite_of_mem_reals (h.2.2.2.2 v hv)
  | delete => exact Condition.isFinite_of_mem_reals h.2
  | _ => simp [reals]

/-- The reals of a well-formed script are finite. -/
theorem Script.isFinite_of_mem_reals {s : Script} (h : s.WellFormed) :
    ∀ x ∈ s.reals, x.isFinite = true :=
  List.forall_mem_flatMap.2 fun st hst => Statement.isFinite_of_mem_reals (h st hst)

/-- A list is its own image if each element is. -/
theorem map_eq_self_iff {α : Type} {f : α → α} (as : List α) :
    as.map f = as ↔ ∀ a ∈ as, f a = a := by
  induction as with
  | nil => simp
  | cons a as ih => simp [ih]

theorem Value.reread_eq_self_iff (v : Value) : v.reread = v ↔ ∀ x ∈ v.reals, x.reread = x := by
  cases v <;> simp [reread, reals]

theorem Operand.reread_eq_self_iff (o : Operand) :
    o.reread = o ↔ ∀ x ∈ o.reals, x.reread = x := by
  cases o with
  | column => simp [reread, reals]
  | value v => simp [reread, reals, v.reread_eq_self_iff]

theorem Condition.map_reread_eq_self_iff (c : Option Condition) :
    c.map reread = c ↔ ∀ x ∈ c.toList.flatMap reals, x.reread = x := by
  cases c with
  | none => simp
  | some c =>
    obtain ⟨left, op, right⟩ := c
    simp [reread, reals, Operand.reread_eq_self_iff, or_imp, forall_and]

theorem Statement.reread_eq_self_iff (st : Statement) :
    st.reread = st ↔ ∀ x ∈ st.reals, x.reread = x := by
  cases st with
  | select => simp only [reread, reals, ← Condition.map_reread_eq_self_iff, select.injEq, true_and]
  | insert =>
    simp only [reread, reals, insert.injEq, map_eq_self_iff, Value.reread_eq_self_iff,
      List.forall_mem_flatMap, true_and]
  | delete => simp only [reread, reals, ← Condition.map_reread_eq_self_iff, delete.injEq, true_and]
  | _ => simp [reread, reals]

/-- Nothing is changed exactly if no real is. -/
theorem Script.reread_eq_self_iff (s : Script) : s.reread = s ↔ ∀ x ∈ s.reals, x.reread = x := by
  obtain ⟨sts⟩ := s
  simp only [reread, reals, mk.injEq, map_eq_self_iff, Statement.reread_eq_self_iff,
    List.forall_mem_flatMap]

/-! ## Agreement -/

theorem Value.agrees_reread_iff (v : Value) :
    v.reread.agrees v = true ↔ ∀ x ∈ v.reals, x.reread.agrees x = true := by
  cases v <;> simp [reread, agrees, reals]

theorem Operand.agrees_reread_iff (o : Operand) :
    o.reread.agrees o = true ↔ ∀ x ∈ o.reals, x.reread.agrees x = true := by
  cases o with
  | column => simp [reread, agrees, reals]
  | value v => exact v.agrees_reread_iff

theorem Condition.agrees_reread_iff (c : Condition) :
    c.reread.agrees c = true ↔ ∀ x ∈ c.reals, x.reread.agrees x = true := by
  simp [reread, agrees, reals, Operand.agrees_reread_iff, or_imp, forall_and]

theorem Condition.clausesAgree_reread_iff (c : Option Condition) :
    clausesAgree (c.map reread) c = true ↔
      ∀ x ∈ c.toList.flatMap reals, x.reread.agrees x = true := by
  cases c with
  | none => simp [clausesAgree]
  | some c => simpa [clausesAgree] using c.agrees_reread_iff

/-- A list is equivalent to its image if each element is to its own. -/
theorem isEqv_map_iff {α : Type} {f : α → α} {r : α → α → Bool} (as : List α) :
    (as.map f).isEqv as r = true ↔ ∀ a ∈ as, r (f a) a = true := by
  induction as with
  | nil => simp
  | cons a as ih => simp [List.isEqv_cons_cons, ih]

theorem Statement.agrees_reread_iff (st : Statement) :
    st.reread.agrees st = true ↔ ∀ x ∈ st.reals, x.reread.agrees x = true := by
  cases st with
  | select => simpa [reread, agrees, reals] using Condition.clausesAgree_reread_iff _
  | insert =>
    simp only [reread, agrees, reals, isEqv_map_iff, Value.agrees_reread_iff,
      List.forall_mem_flatMap, decide_true, Bool.true_and]
  | delete => simpa [reread, agrees, reals] using Condition.clausesAgree_reread_iff _
  | _ => simp [reread, agrees, reals]

/-- **A script agrees with its rereading** exactly if each of its reals does. -/
theorem Script.agrees_reread_iff (s : Script) :
    s.reread.agrees s = true ↔ ∀ x ∈ s.reals, x.reread.agrees x = true := by
  simp only [reread, agrees, reals, isEqv_map_iff, Statement.agrees_reread_iff,
    List.forall_mem_flatMap]

/-- A finite number agrees with itself. -/
theorem Binary32.agrees_self {x : Binary32} (h : x.isFinite = true) : x.agrees x = true := by
  have hfin : x.pattern < infinity := of_decide_eq_true h
  have hnan : x.isNaN = false := decide_eq_false (by omega)
  simp [agrees, hnan]

/-- A well-formed script that no rereading changes agrees with itself. -/
theorem Script.agrees_self {s : Script} (h : s.WellFormed) (hs : s.reread = s) :
    s.agrees s = true := by
  have hx := s.agrees_reread_iff.2 fun x hx => by
    rw [s.reread_eq_self_iff.1 hs x hx]
    exact Binary32.agrees_self (isFinite_of_mem_reals h x hx)
  rwa [hs] at hx

end SqlScript
