import SqlScript.Proofs.Reread

/-!
# The words of the canonical spelling

`Statement.words` lists the words of a statement. They are what the canonical spelling of a
well-formed statement is scanned as, whatever stands behind it (`Statement.words_append`), and
they are a sentence of the grammar that writes the statement with its reals read back
(`Statement.derives_words`).
-/

namespace SqlScript

variable {α β : Type}

/-! ## The words of a tree -/

/-- The type of a literal. -/
def Value.type : Value → DataType
  | integer _ => .int
  | real _ => .real
  | text _ => .text

/-- The kind of the token that an operand is. -/
def Operand.kind : Operand → Kind
  | column _ => .identifier
  | value v => .literal v.type

/-- A name as a word. -/
def nameWord (n : String) : Token := ⟨.identifier, n, .start⟩

/-- A value as a word. -/
def Value.word (v : Value) : Token := ⟨.literal v.type, v.render, .start⟩

/-- An operand as a word. -/
def Operand.word (o : Operand) : Token := ⟨o.kind, o.render, .start⟩

/-- An operator as a word. -/
def Comparison.word (c : Comparison) : Token := ⟨.comparison c, c.spelling, .start⟩

/-- The words of a condition. -/
def Condition.words (c : Condition) : List Token := [c.left.word, c.comparison.word, c.right.word]

/-- The words of a `WHERE` clause. -/
def Condition.clauseWords : Option Condition → List Token
  | none => []
  | some c => Keyword.where_.word :: c.words

/-- The words of a column declaration. -/
def Column.words (c : Column) : List Token := [nameWord c.name, (Keyword.type c.type).word]

/-- The words of the items of a list, with `sep` between them. -/
def separated (sep : List Token) (f : α → List Token) : List α → List Token
  | [] => []
  | a :: as => f a ++ as.flatMap fun b => sep ++ f b

/-- The words of a statement. -/
def Statement.words : Statement → List Token
  | createTable table columns =>
    Keyword.create.word :: Keyword.table.word :: nameWord table :: Mark.leftParen.word ::
      (separated [Mark.comma.word] Column.words columns ++
        [Mark.rightParen.word, Mark.semicolon.word])
  | select columns table condition =>
    Keyword.select.word :: (separated [] (fun n => [nameWord n]) columns ++
      Keyword.from_.word :: nameWord table ::
        (Condition.clauseWords condition ++ [Mark.semicolon.word]))
  | insert table columns values =>
    Keyword.insert.word :: Keyword.into.word :: nameWord table :: Mark.leftParen.word ::
      (separated [Mark.comma.word] (fun n => [nameWord n]) columns ++
        Mark.rightParen.word :: Keyword.values.word :: Mark.leftParen.word ::
          (separated [Mark.comma.word] (fun v => [v.word]) values ++
            [Mark.rightParen.word, Mark.semicolon.word]))
  | delete table condition =>
    Keyword.delete.word :: Keyword.from_.word :: nameWord table ::
      (Condition.clauseWords condition ++ [Mark.semicolon.word])
  | dropTable table =>
    [Keyword.drop.word, Keyword.table.word, nameWord table, Mark.semicolon.word]

/-- The words of a script. -/
def Script.words (s : Script) : List Token := s.statements.flatMap Statement.words

theorem forall_mem_separated {P : Token → Prop} {sep : List Token} {f : α → List Token}
    {as : List α} (hsep : ∀ t ∈ sep, P t) (hf : ∀ a ∈ as, ∀ t ∈ f a, P t) :
    ∀ t ∈ separated sep f as, P t := by
  cases as with
  | nil => simp [separated]
  | cons a as =>
    obtain ⟨ha, has⟩ := List.forall_mem_cons.1 hf
    refine List.forall_mem_append.2 ⟨ha, fun t ht => ?_⟩
    obtain ⟨b, hb, htb⟩ := List.mem_flatMap.1 ht
    exact (List.mem_append.1 htb).elim (hsep t) (has b hb t)

/-- What holds of every sort of word holds of the words of a statement. -/
theorem Statement.forall_mem_words {P : Token → Prop} (keyword : ∀ k : Keyword, P k.word)
    (mark : ∀ m : Mark, P m.word) (comparison : ∀ c : Comparison, P c.word)
    (name : ∀ n, P (nameWord n)) (value : ∀ v : Value, P v.word) (st : Statement) :
    ∀ t ∈ st.words, P t := by
  have hmark : ∀ m, ∀ t ∈ [Mark.word m], P t := fun m => List.forall_mem_singleton.2 (mark m)
  have hname : ∀ n, ∀ t ∈ [nameWord n], P t := fun n => List.forall_mem_singleton.2 (name n)
  have hoperand : ∀ o : Operand, P o.word := fun o => by
    cases o with
    | column n => exact name n
    | value v => exact value v
  have hclause : ∀ c, ∀ t ∈ Condition.clauseWords c, P t := fun c => by
    cases c with
    | none => simp [Condition.clauseWords]
    | some c =>
      simp [Condition.clauseWords, Condition.words, keyword, comparison, hoperand]
  cases st with
  | createTable table columns =>
    have hs : ∀ t ∈ separated [Mark.comma.word] Column.words columns, P t :=
      forall_mem_separated (hmark .comma) fun c _ => by simp [Column.words, name, keyword]
    simp only [words, List.forall_mem_cons, List.forall_mem_append]
    exact ⟨keyword _, keyword _, name _, mark _, hs, mark _, mark _, nofun⟩
  | select columns table condition =>
    have hs : ∀ t ∈ separated [] (fun n => [nameWord n]) columns, P t :=
      forall_mem_separated nofun fun n _ => hname n
    simp only [words, List.forall_mem_cons, List.forall_mem_append]
    exact ⟨keyword _, hs, keyword _, name _, hclause _, mark _, nofun⟩
  | insert table columns values =>
    have hs : ∀ t ∈ separated [Mark.comma.word] (fun n => [nameWord n]) columns, P t :=
      forall_mem_separated (hmark .comma) fun n _ => hname n
    have hs' : ∀ t ∈ separated [Mark.comma.word] (fun v => [Value.word v]) values, P t :=
      forall_mem_separated (hmark .comma) fun v _ => List.forall_mem_singleton.2 (value v)
    simp only [words, List.forall_mem_cons, List.forall_mem_append]
    exact ⟨keyword _, keyword _, name _, mark _, hs, mark _, keyword _, mark _, hs', mark _, mark _,
      nofun⟩
  | delete table condition =>
    simp only [words, List.forall_mem_cons, List.forall_mem_append]
    exact ⟨keyword _, keyword _, name _, hclause _, mark _, nofun⟩
  | dropTable table =>
    simp only [words, List.forall_mem_cons]
    exact ⟨keyword _, keyword _, name _, mark _, nofun⟩

/-! ## Spelled words -/

/-- The characters are scanned as the words, in front of any delimiter. -/
def Spells (ws : List Token) (cs : List Char) : Prop :=
  ∀ r, Delimited r → words (cs ++ r) = ws ++ words r

theorem Lexes.spells {k : Kind} {s : String} (h : Lexes k s.toList) :
    Spells [⟨k, s, .start⟩] s.toList :=
  fun _ hr => h.words_append hr

/-- The characters start with a delimiter, and are scanned as the words in front of anything. -/
def Separates (ws : List Token) (cs : List Char) : Prop :=
  ∀ r, Delimited (cs ++ r) ∧ words (cs ++ r) = ws ++ words r

theorem Spells.words_append {ws ws' : List Token} {cs cs' : List Char} (h : Spells ws cs)
    (h' : Separates ws' cs') (r : List Char) :
    words (cs ++ (cs' ++ r)) = ws ++ (ws' ++ words r) := by
  rw [h _ (h' r).1, (h' r).2]

/-- A space is no word. -/
theorem words_space (r : List Char) : words (' ' :: r) = words r :=
  words_cons_of_isBlank (by decide) r

/-- A keyword and the space behind it. -/
theorem words_keyword (k : Keyword) (r : List Char) :
    words (k.spelling.toList ++ ' ' :: r) = k.word :: words r := by
  rw [k.lexes.words_append (delimited_cons (by decide) r), words_space]
  rfl

/-- Two keywords and the spaces behind them. -/
theorem words_keywords (s : String) (k₁ k₂ : Keyword)
    (hs : s.toList = k₁.spelling.toList ++ ' ' :: (k₂.spelling.toList ++ [' '])) (r : List Char) :
    words (s.toList ++ r) = k₁.word :: k₂.word :: words r := by
  rw [hs, List.append_assoc, List.cons_append, List.append_assoc, words_keyword,
    List.singleton_append, words_keyword]

theorem separates_space : Separates [] " ".toList :=
  fun r => ⟨delimited_cons (by decide) r, words_space r⟩

theorem separates_comma : Separates [Mark.comma.word] ", ".toList := fun r =>
  ⟨delimited_cons (by decide) _,
    (words_char .comma _).trans (congrArg (List.cons _) (words_space r))⟩

theorem separates_from : Separates [Keyword.from_.word] " FROM ".toList := fun r =>
  ⟨delimited_cons (by decide) _, (words_space _).trans (words_keyword .from_ r)⟩

theorem separates_where : Separates [Keyword.where_.word] " WHERE ".toList := fun r =>
  ⟨delimited_cons (by decide) _, (words_space _).trans (words_keyword .where_ r)⟩

theorem separates_open : Separates [Mark.leftParen.word] " (".toList := fun r =>
  ⟨delimited_cons (by decide) _, (words_space _).trans (words_char .leftParen r)⟩

theorem separates_values :
    Separates [Mark.rightParen.word, Keyword.values.word, Mark.leftParen.word]
      ") VALUES (".toList := by
  refine fun r => ⟨delimited_cons (by decide) _, (words_char .rightParen _).trans ?_⟩
  refine congrArg (List.cons _) ((words_space _).trans ((words_keyword .values _).trans ?_))
  exact congrArg (List.cons _) (words_char .leftParen r)

theorem separates_semicolon : Separates [Mark.semicolon.word] ";".toList := fun r =>
  ⟨delimited_cons (by decide) _, words_char .semicolon r⟩

theorem separates_close : Separates [Mark.rightParen.word, Mark.semicolon.word] ");".toList :=
  fun r => ⟨delimited_cons (by decide) _,
    (words_char .rightParen _).trans (congrArg (List.cons _) (words_char .semicolon r))⟩

theorem Spells.append_space {ws ws' : List Token} {cs cs' : List Char} (h : Spells ws cs)
    (h' : Spells ws' cs') : Spells (ws ++ ws') (cs ++ ' ' :: cs') := by
  intro r hr
  rw [List.append_assoc, List.cons_append, h _ (delimited_cons (by decide) _), words_space, h' r hr,
    List.append_assoc]

theorem intercalate_cons_eq_flatMap (sep a : List α) (as : List (List α)) :
    sep.intercalate (a :: as) = a ++ as.flatMap fun b => sep ++ b := by
  induction as generalizing a with
  | nil => simp
  | cons b as ih => simp only [List.intercalate_cons_cons, ih, List.flatMap_cons, List.append_assoc]

section Separated

variable {sep : String} {ws : List Token} {f : α → List Token} {g : α → String} {as : List α}

/-- The later items of a list, each behind a separator. -/
theorem words_flatMap_append (hsep : Separates ws sep.toList)
    (h : ∀ a ∈ as, Spells (f a) (g a).toList) {r : List Char} (hr : Delimited r) :
    Delimited ((as.flatMap fun b => sep.toList ++ (g b).toList) ++ r) ∧
      words ((as.flatMap fun b => sep.toList ++ (g b).toList) ++ r) =
        (as.flatMap fun b => ws ++ f b) ++ words r := by
  induction as with
  | nil => exact ⟨hr, rfl⟩
  | cons a as ih =>
    obtain ⟨hra, hwa⟩ := ih fun b hb => h b (List.mem_cons_of_mem a hb)
    simp only [List.flatMap_cons, List.append_assoc]
    exact ⟨(hsep _).1, by rw [(hsep _).2, h a List.mem_cons_self _ hra, hwa]⟩

/-- The items of a list are spelled one after another. -/
theorem spells_intercalate (hsep : Separates ws sep.toList)
    (h : ∀ a ∈ as, Spells (f a) (g a).toList) :
    Spells (separated ws f as) (sep.intercalate (as.map g)).toList := by
  intro r hr
  rw [String.toList_intercalate, List.map_map]
  cases as with
  | nil => rfl
  | cons a as =>
    obtain ⟨hra, hwa⟩ :=
      words_flatMap_append hsep (fun b hb => h b (List.mem_cons_of_mem a hb)) hr
    rw [List.map_cons, intercalate_cons_eq_flatMap, List.flatMap_map]
    simp only [Function.comp_apply, List.append_assoc, separated]
    rw [h a List.mem_cons_self _ hra, hwa]

end Separated

/-! ## The phrases of a tree -/

theorem IsName.spells {n : String} (h : IsName n) : Spells [nameWord n] n.toList := h.lexes.spells

theorem Value.lexes {v : Value} (h : v.WellFormed) : Lexes (.literal v.type) v.render.toList := by
  cases v with
  | integer n => exact lexes_int n.toInt
  | real x =>
    obtain ⟨es, hes, hdig, -⟩ := Binary32.exists_toList_decimalOfMillionths x.millionths
    rw [render, Binary32.toList_sixPlaces h, hes]
    exact lexes_real _ _ hdig
  | text raw => exact h.lexes

theorem Value.spells {v : Value} (h : v.WellFormed) : Spells [v.word] v.render.toList :=
  (lexes h).spells

theorem Operand.spells {o : Operand} (h : o.WellFormed) : Spells [o.word] o.render.toList := by
  cases o with
  | column n => exact IsName.spells h
  | value v => exact Value.spells h

theorem Condition.spells {c : Condition} (h : c.WellFormed) : Spells c.words c.render.toList := by
  have hs := (Operand.spells h.1).append_space
    (c.comparison.lexes.spells.append_space (Operand.spells h.2))
  simp only [render, String.toList_append, List.append_assoc]
  exact hs

/-- A `WHERE` clause stands between a name and a semicolon. -/
theorem Spells.words_clause {ws : List Token} {cs : List Char} (h : Spells ws cs)
    {c : Option Condition} (hc : Condition.ClauseWellFormed c) (r : List Char) :
    words (cs ++ ((Condition.renderClause c).toList ++ (";".toList ++ r))) =
      ws ++ (Condition.clauseWords c ++ Mark.semicolon.word :: words r) := by
  cases c with
  | none => exact h.words_append separates_semicolon r
  | some c =>
    have hs := Condition.spells (hc c rfl)
    rw [Condition.renderClause, String.toList_append, List.append_assoc,
      h.words_append separates_where, hs.words_append separates_semicolon]
    rfl

theorem Column.spells {c : Column} (h : IsName c.name) : Spells c.words c.render.toList := by
  have hs := h.spells.append_space (Keyword.type c.type).lexes.spells
  simp only [render, String.toList_append, List.append_assoc]
  exact hs

theorem spells_names {ws : List Token} {sep : String} (hsep : Separates ws sep.toList)
    {ns : List String} (h : ∀ n ∈ ns, IsName n) :
    Spells (separated ws (fun n => [nameWord n]) ns) (sep.intercalate ns).toList := by
  have hs := spells_intercalate (g := id) hsep fun n hn => (h n hn).spells
  rwa [List.map_id] at hs

/-! ## Statements -/

/-- **The canonical spelling is scanned as the words of the statement**, whatever stands
behind it. -/
theorem Statement.words_append {st : Statement} (h : st.WellFormed) (r : List Char) :
    SqlScript.words (st.render.toList ++ r) = st.words ++ SqlScript.words r := by
  unfold render
  cases st with
  | createTable table columns =>
    obtain ⟨hn, -, hc⟩ := h
    have hs := spells_intercalate separates_comma fun c hm => Column.spells (hc c hm)
    simp only [String.toList_append, List.append_assoc]
    rw [words_keywords "CREATE TABLE " .create .table rfl, hn.spells.words_append separates_open,
      hs.words_append separates_close]
    simp [words]
  | select columns table condition =>
    obtain ⟨-, hns, hn, hc⟩ := h
    have hs := spells_names separates_space hns
    simp only [String.toList_append, List.append_assoc]
    have hstart : ∀ cs, SqlScript.words ("SELECT ".toList ++ cs) =
        Keyword.select.word :: SqlScript.words cs := words_keyword .select
    rw [hstart, hs.words_append separates_from, hn.spells.words_clause hc]
    simp [words]
  | insert table columns values =>
    obtain ⟨hn, -, hns, -, hv⟩ := h
    have hs := spells_names separates_comma hns
    have hs' := spells_intercalate separates_comma fun v hm => Value.spells (hv v hm)
    simp only [String.toList_append, List.append_assoc]
    rw [words_keywords "INSERT INTO " .insert .into rfl, hn.spells.words_append separates_open,
      hs.words_append separates_values, hs'.words_append separates_close]
    simp [words]
  | delete table condition =>
    obtain ⟨hn, hc⟩ := h
    simp only [String.toList_append, List.append_assoc]
    rw [words_keywords "DELETE FROM " .delete .from_ rfl, hn.spells.words_clause hc]
    simp [words]
  | dropTable table =>
    simp only [String.toList_append, List.append_assoc]
    rw [words_keywords "DROP TABLE " .drop .table rfl,
      (IsName.spells h).words_append separates_semicolon]
    simp [words]

theorem Script.words_render {s : Script} (h : s.WellFormed) :
    SqlScript.words s.render.toList = s.words ++ [.endOfInput .start] := by
  obtain ⟨sts⟩ := s
  simp only [WellFormed, render, words, String.toList_join, List.flatMap_map] at h ⊢
  induction sts with
  | nil => exact words_nil
  | cons st sts ih =>
    obtain ⟨hst, hsts⟩ := List.forall_mem_cons.1 h
    rw [List.flatMap_cons, List.flatMap_cons, String.toList_append, List.append_assoc,
      Statement.words_append hst, List.append_assoc, ← ih hsts]
    exact congrArg _ (words_cons_of_isBlank (by decide) _)

/-! ## Sentences -/

open Phrase

theorem repeated_flatMap {D : Phrase β} {f : α → List Token} {g : α → β} {as : List α}
    (h : ∀ a ∈ as, D (f a) (g a)) : Repeated D (as.flatMap f) (as.map g) := by
  induction as with
  | nil => exact .nil
  | cons a as ih =>
    obtain ⟨ha, has⟩ := List.forall_mem_cons.1 h
    exact .cons ha (ih has)

theorem oneThen_separated {D E : Phrase β} {ws : List Token} {f : α → List Token} {g : α → β}
    {as : List α} (hne : as ≠ []) (h : ∀ a ∈ as, D (f a) (g a))
    (h' : ∀ a ∈ as, E (ws ++ f a) (g a)) : OneThen D E (separated ws f as) (as.map g) := by
  obtain ⟨a, as, rfl⟩ := List.exists_cons_of_ne_nil hne
  exact .intro (h a List.mem_cons_self)
    (repeated_flatMap fun b hb => h' b (List.mem_cons_of_mem a hb))

theorem commaList_separated {D : Phrase β} {f : α → List Token} {g : α → β} {as : List α}
    (hne : as ≠ []) (h : ∀ a ∈ as, D (f a) (g a)) :
    CommaList D (separated [Mark.comma.word] f as) (as.map g) :=
  oneThen_separated hne h fun a ha => .intro rfl (h a ha)

theorem name_nameWord (n : String) : Name [nameWord n] n := .intro ⟨rfl, rfl⟩

theorem names_separated {ns : List String} (hne : ns ≠ []) :
    Names (separated [] (fun n => [nameWord n]) ns) ns := by
  have hs : Names (separated [] (fun n => [nameWord n]) ns) (ns.map id) :=
    oneThen_separated hne (fun n _ => name_nameWord n) fun n _ => name_nameWord n
  rwa [List.map_id] at hs

theorem Value.writesValue_word {v : Value} (h : v.WellFormed) : WritesValue v.word v.reread := by
  cases v with
  | integer n => exact .integer rfl (denotesInteger_toString n.toInt)
  | real x => exact .real rfl (Binary32.denotesDecimal_sixPlaces h) (Binary32.isNearest_reread h)
  | text raw => exact .text rfl

theorem Operand.writesOperand_word {o : Operand} (h : o.WellFormed) :
    WritesOperand o.word o.reread := by
  cases o with
  | column n => exact .column rfl
  | value v => exact .value (Value.writesValue_word h)

theorem Condition.whereClause_clauseWords {c : Option Condition} (h : ClauseWellFormed c) :
    WhereClause (clauseWords c) (c.map reread) := by
  cases c with
  | none => exact .absent
  | some c =>
    obtain ⟨hl, hr⟩ := h c rfl
    exact .present rfl (.intro (Operand.writesOperand_word hl) rfl (Operand.writesOperand_word hr))

/-- **The words of a statement are a sentence** that writes it with its reals read back. -/
theorem Statement.derives_words {st : Statement} (h : st.WellFormed) :
    Derives st.words st.reread := by
  cases st with
  | createTable table columns =>
    have hp := commaList_separated (g := id) h.2.1 fun c _ =>
      OfColumn.intro (n := nameWord c.name) (d := (Keyword.type c.type).word) rfl rfl
    rw [List.map_id] at hp
    exact .createTable (n := nameWord table) rfl rfl rfl rfl hp rfl rfl
  | select columns table condition =>
    exact .select (n := nameWord table) rfl (names_separated h.1) rfl rfl
      (Condition.whereClause_clauseWords h.2.2.2) rfl
  | insert table columns values =>
    have hp := commaList_separated (g := id) h.2.1 fun n _ => name_nameWord n
    rw [List.map_id] at hp
    exact .insert (n := nameWord table) rfl rfl rfl rfl hp rfl rfl rfl
      (commaList_separated h.2.2.2.1 fun v hm => .intro (Value.writesValue_word (h.2.2.2.2 v hm)))
      rfl rfl
  | delete table condition =>
    exact .delete (n := nameWord table) rfl rfl rfl (Condition.whereClause_clauseWords h.2) rfl
  | dropTable table => exact .dropTable (n := nameWord table) rfl rfl rfl rfl

end SqlScript
