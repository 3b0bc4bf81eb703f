import SqlScript.Proofs.Derivation
import SqlScript.Proofs.Segments
import SqlScript.Proofs.Words

/-!
# Well-formed trees

A tree is well formed if its names are names, its lists are not empty, its reals are finite and
its texts are literals. The types hold other trees too, but no script is read as one of them
(`wellFormed_parseScript`): the scanner gives identifiers and texts of the right form only
(`wellSpelled_of_mem_tokens`), and a sentence of the grammar made of such tokens writes a
well-formed statement (`Derives.wellFormed`).
-/

namespace SqlScript

/-! ## Trees -/

/-- The value is one that a script can write. -/
def Value.WellFormed : Value → Prop
  | integer _ => True
  | real x => x.isFinite = true
  | text raw => IsQuoted raw

/-- The operand is one that a script can write. -/
def Operand.WellFormed : Operand → Prop
  | column name => IsName name
  | value v => v.WellFormed

/-- Both sides are ones that a script can write. -/
def Condition.WellFormed (c : Condition) : Prop := c.left.WellFormed ∧ c.right.WellFormed

/-- The condition, if there is one, is one that a script can write. -/
def Condition.ClauseWellFormed (c : Option Condition) : Prop := ∀ d ∈ c, d.WellFormed

/-- The statement is one that a script can write. -/
def Statement.WellFormed : Statement → Prop
  | createTable table columns =>
    IsName table ∧ columns ≠ [] ∧ ∀ c ∈ columns, IsName c.name
  | select columns table condition =>
    columns ≠ [] ∧ (∀ n ∈ columns, IsName n) ∧ IsName table ∧ Condition.ClauseWellFormed condition
  | insert table columns values =>
    IsName table ∧ columns ≠ [] ∧ (∀ n ∈ columns, IsName n) ∧
      values ≠ [] ∧ ∀ v ∈ values, v.WellFormed
  | delete table condition => IsName table ∧ Condition.ClauseWellFormed condition
  | dropTable table => IsName table

/-- All statements are ones that a script can write. -/
def Script.WellFormed (s : Script) : Prop := ∀ st ∈ s.statements, st.WellFormed

/-! ## Tokens of a text -/

/-- An identifier is a name, and a text literal is one. -/
def Token.WellSpelled (t : Token) : Prop :=
  (t.kind = .identifier → IsName t.text) ∧ (t.kind = .literal .text → IsQuoted t.text)

namespace Lexeme

/-- A lexeme that is spelled as its kind asks for. -/
def WellSpelled (x : Lexeme) : Prop := ∀ l, Token.WellSpelled ⟨x.kind, String.ofList x.chars, l⟩

theorem wellSpelled_of_kind {x : Lexeme} (h₁ : x.kind ≠ .identifier)
    (h₂ : x.kind ≠ .literal .text) : x.WellSpelled :=
  fun _ => ⟨fun h => absurd h h₁, fun h => absurd h h₂⟩

theorem wellSpelled_word {c : Char} (hc : c.isAlpha = true) (cs : List Char) :
    (word (c :: cs)).WellSpelled := by
  have hw : (c :: cs).takeWhile Char.isAlphanum = c :: cs.takeWhile Char.isAlphanum :=
    List.takeWhile_cons_of_pos (isAlphanum_of_isAlpha hc)
  refine fun l => ⟨fun h => ?_, fun h => ?_⟩
  · refine ⟨c, cs.takeWhile Char.isAlphanum, ?_, hc, fun d hd => ?_, ?_⟩
    · simp only [word, String.toList_ofList, hw]
    · exact List.all_eq_true.1 List.all_takeWhile d hd
    · exact wordKind_eq_identifier_iff.1 h
  · simp only [word, wordKind] at h
    split at h <;> cases h

theorem wellSpelled_number (sign cs : List Char) : (number sign cs).WellSpelled := by
  unfold number
  split <;> exact wellSpelled_of_kind (by simp) (by simp)

theorem wellSpelled_quoted (cs : List Char) : (quoted cs).WellSpelled := by
  unfold quoted
  dsimp only
  split
  · refine fun l => ⟨nofun, fun _ => ⟨cs.takeWhile isQuotable, ?_, ?_⟩⟩
    · exact String.toList_ofList
    · exact List.all_eq_true.1 List.all_takeWhile
  · exact wellSpelled_of_kind (by simp) (by simp)

/-- Whatever a text starts with is spelled as its kind asks for. -/
theorem wellSpelled_first (c : Char) (cs : List Char) : (first c cs).WellSpelled := by
  unfold first
  split
  · exact wellSpelled_of_kind (by simp) (by simp)
  · split
    · next h => exact wellSpelled_word h cs
    split
    · exact wellSpelled_number _ _
    split
    · unfold signed
      split
      · exact wellSpelled_of_kind (by simp) (by simp)
      · split
        · exact wellSpelled_number _ _
        · exact wellSpelled_of_kind (by simp) (by simp)
    split
    · exact wellSpelled_quoted cs
    · unfold operator
      split <;> exact wellSpelled_of_kind (by simp) (by simp)

end Lexeme

theorem wellSpelled_of_mem_tokens {l : Location} {cs : List Char} {t : Token}
    (h : t ∈ tokens l cs) : t.WellSpelled :=
  forall_mem_tokens (fun _ => ⟨nofun, nofun⟩) Lexeme.wellSpelled_first h

/-! ## Sentences -/

namespace Phrase

variable {α : Type}

/-- Made of well-spelled tokens, the phrase writes only what `P` holds of. -/
def Yields (D : Phrase α) (P : α → Prop) : Prop :=
  ∀ p a, D p a → (∀ t ∈ p, t.WellSpelled) → P a

variable {D : Phrase α} {P : α → Prop}

theorem Yields.repeated (h : Yields D P) : Yields (Repeated D) fun as => ∀ a ∈ as, P a := by
  intro p as hp hw
  induction hp with
  | nil => simp
  | cons hd _ ih =>
    rw [List.forall_mem_append] at hw
    exact List.forall_mem_cons.2 ⟨h _ _ hd hw.1, ih hw.2⟩

theorem Yields.afterComma (h : Yields D P) : Yields (AfterComma D) P := by
  rintro _ a ⟨_, hd⟩ hw
  exact h _ _ hd (List.forall_mem_cons.1 hw).2

theorem Yields.oneThen {E : Phrase α} (h : Yields D P) (h' : Yields E P) :
    Yields (OneThen D E) fun as => as ≠ [] ∧ ∀ a ∈ as, P a := by
  rintro _ _ ⟨hd, hs⟩ hw
  rw [List.forall_mem_append] at hw
  exact ⟨by simp, List.forall_mem_cons.2 ⟨h _ _ hd hw.1, h'.repeated _ _ hs hw.2⟩⟩

theorem Yields.commaList (h : Yields D P) :
    Yields (CommaList D) fun as => as ≠ [] ∧ ∀ a ∈ as, P a :=
  h.oneThen h.afterComma

theorem yields_name : Yields Name IsName := by
  rintro _ _ ⟨hk, rfl⟩ hw
  exact (hw _ List.mem_cons_self).1 hk

theorem yields_names : Yields Names fun ns => ns ≠ [] ∧ ∀ n ∈ ns, IsName n :=
  yields_name.oneThen yields_name

theorem WritesValue.wellFormed {t : Token} {v : Value} (h : WritesValue t v)
    (hw : t.WellSpelled) : v.WellFormed := by
  cases h with
  | integer => trivial
  | real hk hq hx => exact hx.isFinite
  | text hk => exact hw.2 hk

theorem yields_value : Yields OfValue Value.WellFormed := by
  rintro _ _ ⟨hv⟩ hw
  exact hv.wellFormed (hw _ List.mem_cons_self)

theorem WritesOperand.wellFormed {t : Token} {o : Operand} (h : WritesOperand t o)
    (hw : t.WellSpelled) : o.WellFormed := by
  cases h with
  | column hk => exact hw.1 hk
  | value hv => exact hv.wellFormed hw

theorem yields_column : Yields OfColumn fun c => IsName c.name := by
  rintro _ _ ⟨hn, -⟩ hw
  exact (hw _ List.mem_cons_self).1 hn

theorem yields_whereClause : Yields WhereClause Condition.ClauseWellFormed := by
  rintro _ _ (_ | ⟨-, hl, -, hr⟩) hw
  · intro d hd
    cases hd
  · rintro _ ⟨⟩
    exact ⟨hl.wellFormed (hw _ (by simp)), hr.wellFormed (hw _ (by simp))⟩

end Phrase

/-- A sentence made of well-spelled tokens writes a well-formed statement. -/
theorem Derives.wellFormed {p : List Token} {st : Statement} (h : Derives p st)
    (hw : ∀ t ∈ p, t.WellSpelled) : st.WellFormed := by
  cases h with
  | createTable _ _ hn _ hp =>
    exact ⟨(hw _ (by simp)).1 hn,
      Phrase.yields_column.commaList _ _ hp fun t ht => hw t (by simp [ht])⟩
  | select _ hp _ hn hq =>
    obtain ⟨hne, hns⟩ := Phrase.yields_names _ _ hp fun t ht => hw t (by simp [ht])
    exact ⟨hne, hns, (hw _ (by simp)).1 hn,
      Phrase.yields_whereClause _ _ hq fun t ht => hw t (by simp [ht])⟩
  | insert _ _ hn _ hp _ _ _ hq =>
    obtain ⟨hne, hns⟩ := Phrase.yields_name.commaList _ _ hp fun t ht => hw t (by simp [ht])
    exact ⟨(hw _ (by simp)).1 hn, hne, hns,
      Phrase.yields_value.commaList _ _ hq fun t ht => hw t (by simp [ht])⟩
  | delete _ _ hn hq =>
    exact ⟨(hw _ (by simp)).1 hn,
      Phrase.yields_whereClause _ _ hq fun t ht => hw t (by simp [ht])⟩
  | dropTable _ _ hn => exact (hw _ (by simp)).1 hn

/-! ## Scripts -/

/-- An attempt that succeeds has read a sentence. -/
theorem Tape.exists_derives_of_attempt {ts : List Token} {l : Location} {st : Statement}
    (h : (attempt (⟨ts, l⟩ : Tape)).1 = .parsed st) : ∃ p r, ts = p ++ r ∧ Derives p st := by
  unfold attempt at h
  generalize hx : Grammar.statement.run (⟨ts, l⟩ : Tape) = x at h
  rcases x with ⟨e | st', t⟩
  · cases h
  · obtain rfl := Attempt.parsed.inj h
    obtain ⟨p, r, hts, hd, -⟩ := (Grammar.reads_statement _ _ _ _).1 hx
    exact ⟨p, r, hts, hd⟩

/-- A statement that is read from a tape is written by tokens of it. -/
theorem Tape.exists_derives_of_mem_parse {ts : List Token} {l : Location} {st : Statement}
    (hend : ∀ t ∈ ts, t.isEnd = false)
    (h : st ∈ (parse (⟨ts, l⟩ : Tape)).1.script.statements) :
    ∃ p, Derives p st ∧ ∀ t ∈ p, t ∈ ts := by
  have hseg := segmented_segments ts
  rw [parse, Tape.attempts_eq_map_segments hseg hend] at h
  simp only [Outcome.ofAttempts, List.mem_filterMap, List.mem_map] at h
  obtain ⟨a, ⟨seg, hmem, rfl⟩, ha⟩ := h
  cases hat : (attempt (⟨seg, l⟩ : Tape)).1 with
  | recovered e n => rw [hat] at ha; cases ha
  | parsed st' =>
    rw [hat] at ha
    obtain rfl := Option.some.inj ha
    obtain ⟨p, r, rfl, hd⟩ := Tape.exists_derives_of_attempt hat
    refine ⟨p, hd, fun t htp => ?_⟩
    rw [← hseg.flatten]
    exact List.mem_flatten_of_mem hmem (List.mem_append_left _ htp)

/-- **Only well-formed statements are read**, whatever the text. -/
theorem wellFormed_parseScript (text : String) : (parseScript text).script.WellFormed := by
  obtain ⟨ts, l, hts, hend, hp⟩ := exists_parseScript_eq text
  intro st hst
  rw [hp] at hst
  obtain ⟨p, hd, hmem⟩ := Tape.exists_derives_of_mem_parse hend hst
  exact hd.wellFormed fun t ht =>
    wellSpelled_of_mem_tokens (hts ▸ List.mem_append_left _ (hmem t ht))

end SqlScript
