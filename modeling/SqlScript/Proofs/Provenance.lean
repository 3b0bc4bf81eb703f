import SqlScript.Proofs.Cursor
import SqlScript.Proofs.Leaves
import SqlScript.Proofs.Spelling
import SqlScript.Proofs.Tiling

/-!
# Where the parts of a tree come from

From whatever state of a scanner a script is read, its statements are sentences made of tokens of
the text (`Scanner.Reachable.exists_derives_of_mem_parse`), and those tokens are pieces of one line
each. So every statement is well formed, its names and texts are pieces of the text, and no line
feed can come into its canonical spelling (`Statement.newline_notMem_render`): a rendered script
has one line for each statement (`Script.splitOn_render`).
-/

namespace SqlScript

/-! ## The tokens ahead of a scanner -/

/-- What stands on the tape of a text are pieces of it. -/
theorem Scanner.ReadsAs.isPieceOf {text : String} {t : Tape} (h : (ofString text).ReadsAs t) :
    ∀ u ∈ t.upcoming, u.IsPieceOf text := by
  obtain ⟨ps, last, htiles, htokens⟩ := exists_tiles_tokens [] text.toList
  have hremaining : (ofString text).remaining = tokens .start text.toList :=
    remaining_of_pending_none rfl
  rw [h.remaining_eq] at hremaining
  obtain ⟨hps, -⟩ := List.append_inj' (hremaining.trans htokens) rfl
  have hpieces := htiles.isPieceOf
  rwa [← hps, List.nil_append, String.ofList_toList] at hpieces

theorem Token.IsPieceOf.isInfix {t : Token} {text : String} (h : t.IsPieceOf text) :
    t.text.toList <:+: text.toList := by
  obtain ⟨before, after, rfl, -⟩ := h.exists_append
  refine ⟨before.toList, after.toList, ?_⟩
  simp only [String.toList_append, List.append_assoc]

/-- A statement that is read from a reachable scanner is written by tokens that are pieces of the
text, and spelled as their kinds ask for. -/
theorem Scanner.Reachable.exists_derives_of_mem_parse {text : String} {s : Scanner}
    (h : s.Reachable text) {st : Statement} (hst : st ∈ (parse s).1.script.statements) :
    ∃ p, Derives p st ∧ ∀ t ∈ p, t.IsPieceOf text ∧ t.WellSpelled := by
  have hstart : (ofString text).Reachable text := .start
  obtain ⟨t, ht⟩ := hstart.exists_readsAs
  obtain ⟨c, hc⟩ := h.exists_standsAt ht
  have hparse := Scanner.simulation_readsAs.parse hc.readsAs
  rw [Outcome.relocate_id] at hparse
  rw [← hparse] at hst
  obtain ⟨p, hd, hmem⟩ := Tape.exists_derives_of_mem_parse hc.readsAs.isEnd_eq_false hst
  refine ⟨p, hd, fun u hu => ?_⟩
  have hu' : u ∈ t.upcoming := List.mem_of_mem_drop (hmem u hu)
  refine ⟨ht.isPieceOf u hu', ?_⟩
  have hremaining := remaining_of_pending_none (s := ofString text) rfl
  rw [ht.remaining_eq] at hremaining
  exact wellSpelled_of_mem_tokens (hremaining ▸ List.mem_append_left _ hu')

/-- Only well-formed scripts are read from a reachable scanner. -/
theorem Scanner.Reachable.wellFormed_parse {text : String} {s : Scanner} (h : s.Reachable text) :
    (parse s).1.script.WellFormed := by
  intro st hst
  obtain ⟨p, hd, hp⟩ := h.exists_derives_of_mem_parse hst
  exact hd.wellFormed fun t ht => (hp t ht).2

/-! ## Names and texts -/

/-- What a leaf takes over from the text as it stands there: a name, or a text with its quotes. -/
def Operand.quotation? : Operand → Option String
  | column name => some name
  | value (.text raw) => some raw
  | value _ => none

namespace Phrase

theorem WritesOperand.text_eq_of_quotation? {t : Token} {o : Operand} (h : WritesOperand t o) :
    ∀ w ∈ o.quotation?, t.text = w := by
  cases h with
  | column hk =>
    rintro w ⟨⟩
    rfl
  | value hv =>
    cases hv with
    | text hk =>
      rintro w ⟨⟩
      rfl
    | _ => exact nofun

theorem WritesLeaves.exists_of_mem {p : List Token} {os : List Operand} (h : WritesLeaves p os)
    {o : Operand} (ho : o ∈ os) : ∃ t ∈ p, WritesOperand t o := by
  obtain ⟨k, hk, rfl⟩ := List.mem_iff_getElem.1 ho
  have hlen := h.length_eq
  have hk' : k < (p.filter Token.isLeaf).length := by omega
  exact ⟨_, (List.mem_filter.1 (List.getElem_mem hk')).1, h.get hk' hk⟩

end Phrase

/-! ## Lines -/

/-- What is one token in front of a delimiter holds no line feed. -/
theorem Lexes.newline_notMem {k : Kind} {w : List Char} (h : Lexes k w) : '\n' ∉ w := by
  obtain ⟨c, cs, rfl, hc, hfirst⟩ := h
  have hn := newline_notMem_chars_first hc (cs ++ [' '])
  rwa [hfirst [' '] (delimited_cons (by decide) [])] at hn

theorem newline_notMem_intercalate {sep : String} {ss : List String} (hsep : '\n' ∉ sep.toList)
    (h : ∀ s ∈ ss, '\n' ∉ s.toList) : '\n' ∉ (sep.intercalate ss).toList := by
  rw [String.toList_intercalate]
  cases ss with
  | nil => exact List.not_mem_nil
  | cons s ss =>
    obtain ⟨hs, hss⟩ := List.forall_mem_cons.1 h
    rw [List.map_cons, intercalate_cons_eq_flatMap]
    simpa [hs, hsep] using hss

theorem newline_notMem_append {s s' : String} (h : '\n' ∉ s.toList) (h' : '\n' ∉ s'.toList) :
    '\n' ∉ (s ++ s').toList := by
  rw [String.toList_append, List.mem_append]
  exact not_or.2 ⟨h, h'⟩

theorem Value.newline_notMem_render {v : Value} (h : v.WellFormed) : '\n' ∉ v.render.toList :=
  (lexes h).newline_notMem

theorem Operand.newline_notMem_render {o : Operand} (h : o.WellFormed) :
    '\n' ∉ o.render.toList := by
  cases o with
  | column name => exact (IsName.lexes h).newline_notMem
  | value v => exact Value.newline_notMem_render h

theorem Condition.newline_notMem_renderClause {c : Option Condition} (h : ClauseWellFormed c) :
    '\n' ∉ (renderClause c).toList := by
  cases c with
  | none => exact List.not_mem_nil
  | some c =>
    obtain ⟨hl, hr⟩ := h c rfl
    have hspace : '\n' ∉ " ".toList := by decide
    have hleft := newline_notMem_append (Operand.newline_notMem_render hl) hspace
    have hop := newline_notMem_append hleft c.comparison.lexes.newline_notMem
    have hright := newline_notMem_append hop hspace
    have hc := newline_notMem_append hright (Operand.newline_notMem_render hr)
    exact newline_notMem_append (s := " WHERE ") (by decide) hc

theorem Column.newline_notMem_render {c : Column} (h : IsName c.name) :
    '\n' ∉ c.render.toList := by
  have hspace : '\n' ∉ " ".toList := by decide
  have hname := newline_notMem_append h.lexes.newline_notMem hspace
  exact newline_notMem_append hname (Keyword.type c.type).lexes.newline_notMem

/-- **A well-formed statement is spelled on one line.** -/
theorem Statement.newline_notMem_render {st : Statement} (h : st.WellFormed) :
    '\n' ∉ st.render.toList := by
  unfold render
  cases st with
  | createTable table columns =>
    obtain ⟨hn, -, hc⟩ := h
    have hcolumns : '\n' ∉ (", ".intercalate (columns.map Column.render)).toList :=
      newline_notMem_intercalate (by decide)
        (List.forall_mem_map.2 fun c hm => Column.newline_notMem_render (hc c hm))
    simp only [String.toList_append, List.mem_append, not_or]
    exact ⟨⟨⟨⟨by decide, hn.lexes.newline_notMem⟩, by decide⟩, hcolumns⟩, by decide⟩
  | select columns table condition =>
    obtain ⟨-, hns, hn, hc⟩ := h
    have hcolumns : '\n' ∉ (" ".intercalate columns).toList :=
      newline_notMem_intercalate (by decide) fun n hm => (hns n hm).lexes.newline_notMem
    simp only [String.toList_append, List.mem_append, not_or]
    exact ⟨⟨⟨⟨⟨by decide, hcolumns⟩, by decide⟩, hn.lexes.newline_notMem⟩,
      Condition.newline_notMem_renderClause hc⟩, by decide⟩
  | insert table columns values =>
    obtain ⟨hn, -, hns, -, hv⟩ := h
    have hcolumns : '\n' ∉ (", ".intercalate columns).toList :=
      newline_notMem_intercalate (by decide) fun n hm => (hns n hm).lexes.newline_notMem
    have hvalues : '\n' ∉ (", ".intercalate (values.map Value.render)).toList :=
      newline_notMem_intercalate (by decide)
        (List.forall_mem_map.2 fun v hm => Value.newline_notMem_render (hv v hm))
    simp only [String.toList_append, List.mem_append, not_or]
    exact ⟨⟨⟨⟨⟨⟨by decide, hn.lexes.newline_notMem⟩, by decide⟩, hcolumns⟩, by decide⟩, hvalues⟩,
      by decide⟩
  | delete table condition =>
    obtain ⟨hn, hc⟩ := h
    simp only [String.toList_append, List.mem_append, not_or]
    exact ⟨⟨⟨by decide, hn.lexes.newline_notMem⟩, Condition.newline_notMem_renderClause hc⟩,
      by decide⟩
  | dropTable table =>
    have hn : IsName table := h
    simp only [String.toList_append, List.mem_append, not_or]
    exact ⟨⟨by decide, hn.lexes.newline_notMem⟩, by decide⟩

/-- **The lines of a well-formed script are its statements**, in order; nothing stands behind the
last line feed. -/
theorem Script.splitOn_render {s : Script} (h : s.WellFormed) :
    s.render.toList.splitOn '\n' = s.statements.map (fun st => st.render.toList) ++ [[]] := by
  obtain ⟨sts⟩ := s
  simp only [WellFormed, render, String.toList_join, List.flatMap_map] at h ⊢
  -- the first line feed of what is left is the one behind its first statement
  induction sts with
  | nil => exact List.splitOn_nil '\n'
  | cons st sts ih =>
    obtain ⟨hst, hsts⟩ := List.forall_mem_cons.1 h
    have hline : ∀ c ∈ st.render.toList, (c == '\n') = false := fun c hc =>
      beq_false_of_ne fun e => Statement.newline_notMem_render hst (e ▸ hc)
    rw [List.flatMap_cons, String.toList_append, List.append_assoc, List.splitOn_eq_splitOnP]
    have hsplit := List.splitOnP_append_cons_of_forall_mem hline '\n' (beq_self_eq_true _)
      (sts.flatMap fun a => (a.render ++ "\n").toList)
    exact hsplit.trans (congrArg _ (List.splitOn_eq_splitOnP.symm.trans (ih hsts)))

/-! ## Parsed scripts -/

/-- **Every statement that is read is well formed and made of pieces of the text**, from whatever
state of its scanner the text is read, also with broken statements in between: its lists are not
empty, its names are names and no keywords, its reals are finite, and each name and each text with
its quotes stands in the text as it is. It is spelled on one line, and these are the lines of the
canonical spelling of the script. -/
theorem wellFormed_parse_of_reachable {text : String} {s : Scanner} (h : s.Reachable text) :
    (∀ st ∈ (parse s).1.script.statements,
      st.WellFormed ∧
      (∀ o ∈ st.leaves, ∀ w ∈ o.quotation?, w.toList <:+: text.toList) ∧
      '\n' ∉ st.render.toList) ∧
    (parse s).1.script.render.toList.splitOn '\n' =
      (parse s).1.script.statements.map (fun st => st.render.toList) ++ [[]] := by
  refine ⟨fun st hst => ?_, Script.splitOn_render h.wellFormed_parse⟩
  obtain ⟨p, hd, hp⟩ := h.exists_derives_of_mem_parse hst
  have hst' : st.WellFormed := h.wellFormed_parse st hst
  refine ⟨hst', fun o ho w hw => ?_, Statement.newline_notMem_render hst'⟩
  obtain ⟨t, ht, hto⟩ := hd.writesLeaves.exists_of_mem ho
  rw [← hto.text_eq_of_quotation? w hw]
  exact (hp t ht).1.isInfix

/-- A scanner inside a broken statement, with a token taken and the next one seen: the text of
the statement behind it stands in the script with its quotes. -/
theorem wellFormed_parse_of_reachable_drop :
    let text := "DROP (;\nSELECT a FROM t WHERE \"x  y\" < 7;"
    let s := (Scanner.ofString text).take.2.peek.2
    let st := Statement.select ["a"] "t"
      (some ⟨.value (.text "\"x  y\""), .less, .value (.integer 7)⟩)
    s.Reachable text ∧ (parse s).1.script.statements = [st] ∧ st.WellFormed ∧
      "\"x  y\"".toList <:+: text.toList := by
  intro text s st
  have hs : s.Reachable text := .peek (.take .start)
  have hparse : (parse s).1.script.statements = [st] := by decide +kernel
  obtain ⟨hstatements, -⟩ := wellFormed_parse_of_reachable hs
  rw [hparse] at hstatements
  obtain ⟨hst, hquotations, -⟩ := hstatements st List.mem_cons_self
  have hleaf : Operand.value (.text "\"x  y\"") ∈ st.leaves := by decide
  exact ⟨hs, hparse, hst, hquotations _ hleaf _ rfl⟩

end SqlScript
