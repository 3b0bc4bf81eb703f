import Mathlib.Data.List.Infix
import Mathlib.Data.List.Nodup
import SqlScript.Diagnostic
import SqlScript.Proofs.Digits

/-!
# Reports can be taken apart

A report and a shown token put a text that may be anything between fixed separators, without any
quoting, and yet nothing is lost: all that is shown can be told from the line alone
(`reports_unambiguous`). What was expected ends at the first `, got `, since that separator cannot
overlap itself (`append_separator_inj`). The kind ends at the first space, and the text ends at the
last quote, since a position holds none.
-/

namespace SqlScript

/-! ## Separators -/

section Separators

variable {α : Type} {c : α} {w a b x y : List α}

/-- What stands between two places of a separator starts with a whole one, if its first character
does not come again in it. -/
theorem separator_prefix_of_ne_nil (hc : c ∉ w) (ha : a ≠ [])
    (h : c :: w ++ x = a ++ (c :: w ++ y)) : c :: w <+: a := by
  cases a with
  | nil => exact absurd rfl ha
  | cons d a =>
    obtain ⟨rfl, htail⟩ := List.cons.inj h
    -- a whole separator fits in, or else its end holds the first character of the next one
    rcases List.append_eq_append_iff.1 htail with ⟨as, rfl, -⟩ | ⟨bs, rfl, hbs⟩
    · exact ⟨as, rfl⟩
    · cases bs with
      | nil => simp
      | cons e bs =>
        obtain ⟨rfl, -⟩ := List.cons.inj hbs
        simp at hc

/-- **What stands in front of the first separator is determined**, and so is the rest. -/
theorem append_separator_inj (hc : c ∉ w) (ha : ¬ c :: w <:+: a) (hb : ¬ c :: w <:+: b)
    (h : a ++ (c :: w ++ x) = b ++ (c :: w ++ y)) : a = b ∧ x = y := by
  -- one is longer by `d`, which starts with a whole separator if it is not empty
  rcases List.append_eq_append_iff.1 h with ⟨d, rfl, hd⟩ | ⟨d, rfl, hd⟩
  · by_cases hnil : d = []
    · subst hnil
      simpa using hd
    · have hpre := separator_prefix_of_ne_nil hc hnil hd
      exact absurd (hpre.isInfix.trans (List.suffix_append a d).isInfix) hb
  · by_cases hnil : d = []
    · subst hnil
      simpa using hd.symm
    · have hpre := separator_prefix_of_ne_nil hc hnil hd
      exact absurd (hpre.isInfix.trans (List.suffix_append b d).isInfix) ha

/-- What stands in front of the first place of a character is determined. -/
theorem append_cons_inj_of_first (ha : c ∉ a) (hb : c ∉ b) (h : a ++ c :: x = b ++ c :: y) :
    a = b ∧ x = y := by
  apply append_separator_inj (w := []) List.not_mem_nil _ _ h
  · exact fun hi => ha (hi.subset List.mem_cons_self)
  · exact fun hi => hb (hi.subset List.mem_cons_self)

/-- What stands behind the last place of a character is determined. -/
theorem append_cons_inj_of_last (hx : c ∉ x) (hy : c ∉ y) (h : a ++ c :: x = b ++ c :: y) :
    a = b ∧ x = y := by
  have hrev := congrArg List.reverse h
  simp only [List.reverse_append, List.reverse_cons, List.append_assoc,
    List.singleton_append] at hrev
  obtain ⟨hxy, hab⟩ := append_cons_inj_of_first (by simpa using hx) (by simpa using hy) hrev
  exact ⟨List.reverse_inj.1 hab, List.reverse_inj.1 hxy⟩

end Separators

/-! ## The parts of a line -/

namespace Kind

theorem mem_all (k : Kind) : k ∈ all := by
  cases k with
  | keyword k => simp [all, k.mem_all]
  | mark m => cases m <;> simp [all, Mark.all]
  | comparison c => cases c <;> simp [all, Comparison.all]
  | identifier => simp [all]
  | literal d => cases d <;> simp [all, DataType.all]
  | endOfInput => simp [all]
  | unknown => simp [all]

/-- No two kinds have the same name. -/
theorem name_injective : Function.Injective name := by
  have hnodup : (all.map name).Nodup := by decide +kernel
  intro k k' h
  exact List.inj_on_of_nodup_map hnodup k.mem_all k'.mem_all h

theorem space_notMem_name (k : Kind) : ' ' ∉ k.name.toList := by
  have hall : ∀ k ∈ all, ' ' ∉ k.name.toList := by decide +kernel
  exact hall k k.mem_all

end Kind

namespace Location

theorem notMem_toString {c : Char} (hc : c.isDigit = false) (n : Nat) :
    c ∉ (toString n).toList := by
  rw [Nat.toString_eq_repr, Nat.toList_repr]
  intro h
  exact absurd (isDigit_of_mem_toDigits h) (by simp [hc])

theorem eq_of_toList_toString_eq {m n : Nat} (h : (toString m).toList = (toString n).toList) :
    m = n := by
  rw [Nat.toString_eq_repr, Nat.toString_eq_repr, Nat.toList_repr, Nat.toList_repr] at h
  have hread := congrArg (fun cs => Nat.ofDigitChars 10 cs 0) h
  simpa only [Nat.ofDigitChars_ten_toDigits] using hread

/-- A position as it is shown has digits and a colon. -/
theorem notMem_display {c : Char} (hc : c.isDigit = false) (hcolon : c ≠ ':') (l : Location) :
    c ∉ l.display.toList := by
  have hseparator : c ∉ ":".toList := by simpa using hcolon
  simp only [display, String.toList_append, List.mem_append, not_or]
  exact ⟨⟨notMem_toString hc _, hseparator⟩, notMem_toString hc _⟩

/-- A position as it is shown tells line and column. -/
theorem eq_of_display_eq {l m : Location} (h : l.display.toList = m.display.toList) :
    l.line = m.line ∧ l.column = m.column := by
  have hcolon := notMem_toString (c := ':') (by decide)
  simp only [display, String.toList_append, List.append_assoc] at h
  obtain ⟨hline, hcolumn⟩ := append_cons_inj_of_first (hcolon _) (hcolon _) h
  exact ⟨eq_of_toList_toString_eq hline, eq_of_toList_toString_eq hcolumn⟩

end Location

/-- **A kind, a text in quotes and a position can be told apart**, with `sep` in front of the
position. -/
theorem eq_of_shown_eq {sep : List Char} (hsep : '\'' ∉ sep) {k k' : Kind} {w w' : String}
    {l l' : Location}
    (h : k.name.toList ++ ' ' :: '\'' :: (w.toList ++ '\'' :: (sep ++ l.display.toList)) =
      k'.name.toList ++ ' ' :: '\'' :: (w'.toList ++ '\'' :: (sep ++ l'.display.toList))) :
    k = k' ∧ w = w' ∧ l.line = l'.line ∧ l.column = l'.column := by
  have hquote : ∀ l : Location, '\'' ∉ sep ++ l.display.toList := fun l => by
    rw [List.mem_append, not_or]
    exact ⟨hsep, l.notMem_display (by decide) (by decide)⟩
  obtain ⟨hname, hrest⟩ := append_cons_inj_of_first k.space_notMem_name k'.space_notMem_name h
  obtain ⟨htext, hbehind⟩ := append_cons_inj_of_last (hquote _) (hquote _) (List.cons.inj hrest).2
  have hlocation := Location.eq_of_display_eq ((List.append_right_inj sep).1 hbehind)
  exact ⟨Kind.name_injective (String.toList_inj.1 hname), String.toList_inj.1 htext, hlocation⟩

theorem Location.display_congr {l m : Location} (hline : l.line = m.line)
    (hcolumn : l.column = m.column) : l.display = m.display := by
  rw [display, display, hline, hcolumn]

/-! ## Reports and tokens -/

/-- Two reports read the same exactly if all that they show is the same. -/
theorem Diagnostic.message_eq_iff {d e : Diagnostic} (hd : ¬ ", got ".toList <:+: d.expected.toList)
    (he : ¬ ", got ".toList <:+: e.expected.toList) :
    d.message = e.message ↔ d.expected = e.expected ∧ d.found = e.found ∧ d.lexeme = e.lexeme ∧
      d.location.line = e.location.line ∧ d.location.column = e.location.column := by
  constructor
  · intro h
    have hlist := congrArg String.toList h
    simp only [message, String.toList_append, List.append_assoc] at hlist
    have hgot := (List.append_right_inj "Expected ".toList).1 hlist
    have hcomma : ',' ∉ " got ".toList := by decide
    obtain ⟨hexpected, hrest⟩ := append_separator_inj hcomma hd he hgot
    have hspace : '\'' ∉ [' '] := by decide
    exact ⟨String.toList_inj.1 hexpected, eq_of_shown_eq hspace hrest⟩
  · rintro ⟨hexpected, hfound, hlexeme, hline, hcolumn⟩
    rw [message, message, hexpected, hfound, hlexeme, Location.display_congr hline hcolumn]

/-- Two tokens are shown in the same way exactly if all that is shown is the same. -/
theorem Token.display_eq_iff {t u : Token} : t.display = u.display ↔
    t.kind = u.kind ∧ t.text = u.text ∧ t.location.line = u.location.line ∧
      t.location.column = u.location.column := by
  constructor
  · intro h
    have hlist := congrArg String.toList h
    simp only [display, String.toList_append, List.append_assoc] at hlist
    have hloc : '\'' ∉ " Loc=".toList := by decide
    exact eq_of_shown_eq hloc hlist
  · rintro ⟨hkind, htext, hline, hcolumn⟩
    rw [display, display, hkind, htext, Location.display_congr hline hcolumn]

/-- What the rules expect never holds the separator. -/
theorem Expectation.got_not_infix_description (x : Expectation) :
    ¬ ", got ".toList <:+: x.description.toList := by
  cases x with
  | kind k => exact fun h => k.space_notMem_name (h.subset (by decide))
  | _ => decide

/-- **Reports and shown tokens are unambiguous**, whatever texts they show, also texts with quotes,
spaces and separators or ones that look like a report. If what was expected does not hold the
separator `, got `, as is so for all expectations of the rules, a report tells what was expected and
the kind, the text, the line and the column of what was found. A shown token tells its kind, its
text, its line and its column. -/
theorem reports_unambiguous :
    (∀ d e : Diagnostic, ¬ ", got ".toList <:+: d.expected.toList →
      ¬ ", got ".toList <:+: e.expected.toList →
      (d.message = e.message ↔ d.expected = e.expected ∧ d.found = e.found ∧
        d.lexeme = e.lexeme ∧ d.location.line = e.location.line ∧
        d.location.column = e.location.column)) ∧
    (∀ x : Expectation, ¬ ", got ".toList <:+: x.description.toList) ∧
    ∀ t u : Token, t.display = u.display ↔ t.kind = u.kind ∧ t.text = u.text ∧
      t.location.line = u.location.line ∧ t.location.column = u.location.column :=
  ⟨fun _ _ hd he => Diagnostic.message_eq_iff hd he, Expectation.got_not_infix_description,
    fun _ _ => Token.display_eq_iff⟩

/-- A text that imitates the end of a report does not hide which token was found. -/
theorem reports_unambiguous_imitation :
    (⟨"Id", .unknown, "x' 1:2, got Id 'y", ⟨0, 1, 1⟩⟩ : Diagnostic).message =
      "Expected Id, got Unknown 'x' 1:2, got Id 'y' 1:1" ∧
    ∀ e : Diagnostic, ¬ ", got ".toList <:+: e.expected.toList →
      e.message = "Expected Id, got Unknown 'x' 1:2, got Id 'y' 1:1" →
      e.found = .unknown ∧ e.lexeme = "x' 1:2, got Id 'y" ∧ e.location.line = 1 := by
  have hmessage : (⟨"Id", .unknown, "x' 1:2, got Id 'y", ⟨0, 1, 1⟩⟩ : Diagnostic).message =
      "Expected Id, got Unknown 'x' 1:2, got Id 'y' 1:1" := by decide +kernel
  refine ⟨hmessage, fun e he h => ?_⟩
  have hsame := (reports_unambiguous.1 _ e (by decide) he).1 (hmessage.trans h.symm)
  exact ⟨hsame.2.1.symm, hsame.2.2.1.symm, hsame.2.2.2.1.symm⟩

end SqlScript
