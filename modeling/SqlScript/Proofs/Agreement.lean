import Mathlib.Data.List.Forall2
import SqlScript.Proofs.Reread

/-!
# What agreement means

Agreement of trees is defined by recursion and compares numbers, so it is neither equality nor, with
something that is no number in a tree, reflexive. It is equality of the trees with every zero made
positive, as long as they hold numbers only (`Script.agrees_iff`). Said place by place, the trees
agree if they have the same shape, and their reals, in order, match (`Script.agrees_iff_shape`).
-/

namespace SqlScript

variable {α β : Type}

/-! ## Numbers -/

namespace Binary32

/-- The positive zero. -/
def zero : Binary32 := ⟨false, 0, by decide⟩

/-- The number, with the sign of a zero cleared. -/
def clearZero (x : Binary32) : Binary32 := if x.isZero then zero else x

/-- Both are numbers, and they have the same bits or are both zeros. -/
def Matches (x y : Binary32) : Prop :=
  x.isNaN = false ∧ y.isNaN = false ∧
    (x.bits = y.bits ∨ (x.isZero = true ∧ y.isZero = true))

/-- The bits determine the number. -/
theorem bits_injective : Function.Injective bits := by
  rintro ⟨s, p, hp⟩ ⟨t, q, hq⟩ h
  cases s <;> cases t <;> simp [bits] at h ⊢ <;> omega

theorem isZero_clearZero (x : Binary32) : x.clearZero.isZero = x.isZero := by
  unfold clearZero
  split
  · next h => exact h.symm
  · rfl

theorem clearZero_eq_iff (x y : Binary32) :
    x.clearZero = y.clearZero ↔ x.bits = y.bits ∨ (x.isZero = true ∧ y.isZero = true) := by
  rw [bits_injective.eq_iff]
  constructor
  · intro h
    have hz : x.isZero = y.isZero := by rw [← isZero_clearZero x, h, isZero_clearZero]
    cases hy : y.isZero with
    | false => exact .inl (by simpa [clearZero, hz, hy] using h)
    | true => exact .inr ⟨hz.trans hy, rfl⟩
  · rintro (rfl | ⟨hx, hy⟩)
    · rfl
    · simp [clearZero, hx, hy]

theorem agrees_iff_matches (x y : Binary32) : x.agrees y = true ↔ x.Matches y := by
  simp [agrees, Matches, bits_injective.eq_iff, and_assoc]

end Binary32

open Binary32

/-- All of them are numbers. -/
def AllNumbers (xs : List Binary32) : Prop := ∀ x ∈ xs, x.isNaN = false

theorem allNumbers_append {xs ys : List Binary32} :
    AllNumbers (xs ++ ys) ↔ AllNumbers xs ∧ AllNumbers ys :=
  List.forall_mem_append

/-! ## Trees with other reals -/

/-- The value with its real replaced. -/
def Value.mapReals (f : Binary32 → Binary32) : Value → Value
  | real x => real (f x)
  | integer n => integer n
  | text raw => text raw

/-- The operand with its real replaced. -/
def Operand.mapReals (f : Binary32 → Binary32) : Operand → Operand
  | column name => column name
  | value v => value (v.mapReals f)

/-- The condition with its reals replaced. -/
def Condition.mapReals (f : Binary32 → Binary32) (c : Condition) : Condition :=
  ⟨c.left.mapReals f, c.comparison, c.right.mapReals f⟩

/-- The statement with its reals replaced. -/
def Statement.mapReals (f : Binary32 → Binary32) : Statement → Statement
  | createTable table columns => createTable table columns
  | select columns table condition => select columns table (condition.map (.mapReals f))
  | insert table columns values => insert table columns (values.map (.mapReals f))
  | delete table condition => delete table (condition.map (.mapReals f))
  | dropTable table => dropTable table

/-- The script with its reals replaced. -/
def Script.mapReals (f : Binary32 → Binary32) (s : Script) : Script :=
  ⟨s.statements.map (.mapReals f)⟩

/-- All of a script but its reals: their places are kept, with a zero there. -/
def Script.shape (s : Script) : Script := s.mapReals fun _ => zero

/-- The script with the signs of its zeros cleared. -/
def Script.clearZeros (s : Script) : Script := s.mapReals clearZero

/-! ## Agreement as equality -/

theorem Value.agrees_iff (v w : Value) : v.agrees w = true ↔
    v.mapReals clearZero = w.mapReals clearZero ∧ AllNumbers v.reals ∧ AllNumbers w.reals := by
  cases v <;> cases w <;>
    simp [agrees, mapReals, reals, AllNumbers, agrees_iff_matches, Matches, clearZero_eq_iff]
  -- two reals are left; in all other cases the constructors or the contents decide
  tauto

theorem Operand.agrees_iff (o p : Operand) : o.agrees p = true ↔
    o.mapReals clearZero = p.mapReals clearZero ∧ AllNumbers o.reals ∧ AllNumbers p.reals := by
  cases o <;> cases p <;> simp [agrees, mapReals, reals, Value.agrees_iff, AllNumbers]

theorem Condition.agrees_iff (c d : Condition) : c.agrees d = true ↔
    c.mapReals clearZero = d.mapReals clearZero ∧ AllNumbers c.reals ∧ AllNumbers d.reals := by
  simp only [agrees, mapReals, reals, Bool.and_eq_true, decide_eq_true_eq, Operand.agrees_iff,
    Condition.mk.injEq, allNumbers_append]
  tauto

theorem Condition.clausesAgree_iff (c d : Option Condition) : clausesAgree c d = true ↔
    c.map (mapReals clearZero) = d.map (mapReals clearZero) ∧
      AllNumbers (c.toList.flatMap reals) ∧ AllNumbers (d.toList.flatMap reals) := by
  cases c <;> cases d <;> simp [clausesAgree, AllNumbers, agrees_iff]

/-- Lists agree item by item. -/
theorem isEqv_iff {r : α → α → Bool} {g : α → β} {xs : α → List Binary32}
    (h : ∀ a b, r a b = true ↔ g a = g b ∧ AllNumbers (xs a) ∧ AllNumbers (xs b)) (as bs : List α) :
    as.isEqv bs r = true ↔
      as.map g = bs.map g ∧ AllNumbers (as.flatMap xs) ∧ AllNumbers (bs.flatMap xs) := by
  induction as generalizing bs with
  | nil => cases bs <;> simp [AllNumbers]
  | cons a as ih =>
    cases bs with
    | nil => simp [AllNumbers]
    | cons b bs =>
      simp only [List.isEqv_cons_cons, Bool.and_eq_true, h, ih, List.map_cons, List.cons.injEq,
        List.flatMap_cons, allNumbers_append]
      tauto

theorem Statement.agrees_iff (s t : Statement) : s.agrees t = true ↔
    s.mapReals clearZero = t.mapReals clearZero ∧ AllNumbers s.reals ∧ AllNumbers t.reals := by
  cases s with
  | createTable => cases t <;> simp [agrees, mapReals, reals, AllNumbers]
  | select =>
    cases t <;> simp [agrees, mapReals, Condition.clausesAgree_iff, and_assoc, reals]
  | insert =>
    cases t <;> simp [agrees, mapReals, isEqv_iff Value.agrees_iff, and_assoc, reals]
  | delete => cases t <;> simp [agrees, mapReals, Condition.clausesAgree_iff, and_assoc, reals]
  | dropTable => cases t <;> simp [agrees, mapReals, reals, AllNumbers]

/-- **Agreement is equality with all zeros made positive**, among scripts that hold numbers only. -/
theorem Script.agrees_iff (x y : Script) : x.agrees y = true ↔
    x.clearZeros = y.clearZeros ∧ AllNumbers x.reals ∧ AllNumbers y.reals := by
  simp only [agrees, clearZeros, mapReals, reals, isEqv_iff Statement.agrees_iff, mk.injEq]

/-! ## Shape and reals -/

/-- With their reals replaced by `g`, two trees are equal exactly if they are of one shape and the
same reals come out, place by place. -/
def Replaces (g : (Binary32 → Binary32) → α → β) (xs : α → List Binary32) : Prop :=
  ∀ f a b, g f a = g f b ↔
    g (fun _ => zero) a = g (fun _ => zero) b ∧ (xs a).map f = (xs b).map f

namespace Replaces

variable {g : (Binary32 → Binary32) → α → β} {xs : α → List Binary32}

theorem length_eq (h : Replaces g xs) {a b : α} (hab : g (fun _ => zero) a = g (fun _ => zero) b) :
    (xs a).length = (xs b).length := by
  have hlen := congrArg List.length ((h _ a b).1 hab).2
  rwa [List.length_map, List.length_map] at hlen

/-- Trees of one shape have as many reals, so the reals behind them fall on each other. -/
theorem and_map_eq_iff (h : Replaces g xs) (f : Binary32 → Binary32) (a b : α)
    (ys zs : List Binary32) : g f a = g f b ∧ ys.map f = zs.map f ↔
      g (fun _ => zero) a = g (fun _ => zero) b ∧ (xs a ++ ys).map f = (xs b ++ zs).map f := by
  rw [List.map_append, List.map_append, h f a b]
  constructor
  · rintro ⟨⟨hab, hx⟩, hy⟩
    exact ⟨hab, by rw [hx, hy]⟩
  · rintro ⟨hab, heq⟩
    obtain ⟨hx, hy⟩ :=
      List.append_inj heq (by rw [List.length_map, List.length_map, h.length_eq hab])
    exact ⟨⟨hab, hx⟩, hy⟩

/-- Lists are replaced item by item. -/
theorem list (h : Replaces g xs) : Replaces (fun f => List.map (g f)) (List.flatMap xs) := by
  intro f as
  induction as with
  | nil =>
    intro bs
    cases bs <;> simp
  | cons a as ih =>
    intro bs
    cases bs with
    | nil => simp
    | cons b bs =>
      have hab := h.and_map_eq_iff f a b (as.flatMap xs) (bs.flatMap xs)
      simp only [List.map_cons, List.cons.injEq, List.flatMap_cons, ih bs]
      tauto

/-- So is what may be there or not. -/
theorem option (h : Replaces g xs) :
    Replaces (fun f => Option.map (g f)) fun o => o.toList.flatMap xs := by
  intro f o p
  cases o <;> cases p <;> simp [h f]

end Replaces

theorem Value.replaces : Replaces mapReals reals := by
  intro f v w
  cases v <;> cases w <;> simp [mapReals, reals]

theorem Operand.replaces : Replaces mapReals reals := by
  intro f o p
  cases o <;> cases p <;> simp [mapReals, reals, Value.replaces f]

theorem Condition.replaces : Replaces mapReals reals := by
  intro f c d
  have hleft := Operand.replaces.and_map_eq_iff f c.left d.left c.right.reals d.right.reals
  simp only [mapReals, mk.injEq, reals, Operand.replaces f c.right]
  tauto

theorem Statement.replaces : Replaces mapReals reals := by
  intro f s t
  cases s with
  | createTable => cases t <;> simp [mapReals, reals]
  | select => cases t <;> simp [mapReals, reals, Condition.replaces.option f, and_assoc]
  | insert => cases t <;> simp [mapReals, reals, Value.replaces.list f, and_assoc]
  | delete => cases t <;> simp [mapReals, reals, Condition.replaces.option f, and_assoc]
  | dropTable => cases t <;> simp [mapReals, reals]

theorem Script.replaces : Replaces mapReals reals := by
  intro f x y
  simp only [mapReals, mk.injEq]
  exact Statement.replaces.list f x.statements y.statements

/-- Reals match place by place exactly if all are numbers and they are the same ones, but for the
signs of zeros. -/
theorem forall₂_matches_iff (xs ys : List Binary32) : List.Forall₂ Matches xs ys ↔
    xs.map clearZero = ys.map clearZero ∧ AllNumbers xs ∧ AllNumbers ys := by
  induction xs generalizing ys with
  | nil => cases ys <;> simp [AllNumbers]
  | cons x xs ih =>
    cases ys with
    | nil => simp [AllNumbers]
    | cons y ys =>
      simp only [List.forall₂_cons, ih, Matches, List.map_cons, List.cons.injEq, clearZero_eq_iff,
        AllNumbers, List.forall_mem_cons]
      tauto

/-- **Scripts agree exactly if they have the same shape and their reals match**, place by place. -/
theorem Script.agrees_iff_shape (x y : Script) :
    x.agrees y = true ↔ x.shape = y.shape ∧ List.Forall₂ Matches x.reals y.reals := by
  rw [agrees_iff, clearZeros, clearZeros, replaces clearZero x y, forall₂_matches_iff, and_assoc]
  rfl

/-! ## Agreement as a relation -/

theorem Script.agrees_comm (x y : Script) : x.agrees y = y.agrees x := by
  rw [Bool.eq_iff_iff, agrees_iff, agrees_iff, eq_comm, and_comm (a := AllNumbers x.reals)]

theorem Script.agrees_trans {x y z : Script} (h : x.agrees y = true) (h' : y.agrees z = true) :
    x.agrees z = true := by
  obtain ⟨hxy, hx, -⟩ := (agrees_iff x y).1 h
  obtain ⟨hyz, -, hz⟩ := (agrees_iff y z).1 h'
  exact (agrees_iff x z).2 ⟨hxy.trans hyz, hx, hz⟩

theorem Script.agrees_self_iff (x : Script) : x.agrees x = true ↔ AllNumbers x.reals := by
  simp [agrees_iff]

/-- A well-formed script holds numbers only. -/
theorem Script.WellFormed.allNumbers {s : Script} (h : s.WellFormed) : AllNumbers s.reals := by
  intro x hx
  have hfin := of_decide_eq_true (isFinite_of_mem_reals h x hx)
  exact decide_eq_false (by omega)

/-- **Agreement is identity up to the signs of zeros, as long as there are numbers only.** Scripts
agree exactly if they have the same shape, which is to say that all is the same but the reals, and
if at each place of a real both are numbers with the same bits or both are zeros. So agreement is
symmetric and transitive, a script agrees with itself exactly if it holds numbers only, as every
script does that was read from a text, and scripts that agree are spelled in the same way once the
signs of their zeros are cleared. -/
theorem agreement_up_to_signs_of_zeros :
    (∀ x y : Script, x.agrees y = true ↔
      x.shape = y.shape ∧ List.Forall₂ Matches x.reals y.reals) ∧
    (∀ x y : Script, x.agrees y = y.agrees x) ∧
    (∀ x y z : Script, x.agrees y = true → y.agrees z = true → x.agrees z = true) ∧
    (∀ x : Script, x.agrees x = true ↔ ∀ v ∈ x.reals, v.isNaN = false) ∧
    (∀ text : String, (parseScript text).agrees (parseScript text) = true) ∧
    ∀ x y : Script, x.agrees y = true → x.clearZeros.render = y.clearZeros.render := by
  refine ⟨Script.agrees_iff_shape, Script.agrees_comm, fun _ _ _ => Script.agrees_trans,
    Script.agrees_self_iff, fun text => ?_, fun x y h => ?_⟩
  · have hself := (Script.agrees_self_iff _).2 (wellFormed_parseScript text).allNumbers
    simp [Outcome.agrees, hself]
  · rw [((Script.agrees_iff x y).1 h).1]

/-- Two scripts that differ in the sign of a zero agree and are spelled differently. -/
theorem agreement_up_to_signs_of_zeros_insert :
    let script (negative : Bool) : Script :=
      ⟨[.insert "t" ["a", "b"] [.real ⟨negative, 0, by decide⟩, .integer 0]]⟩
    (script true).agrees (script false) = true ∧ (script true).agrees (script true) = true ∧
      (script true).render ≠ (script false).render ∧
      (script true).clearZeros.render = (script false).clearZeros.render := by
  intro script
  have h : (script true).agrees (script false) = true := by decide
  obtain ⟨-, hcomm, htrans, -, -, hrender⟩ := agreement_up_to_signs_of_zeros
  exact ⟨h, htrans _ _ _ h (hcomm _ _ ▸ h), by decide +kernel, hrender _ _ h⟩

end SqlScript
