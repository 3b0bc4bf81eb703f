import SqlScript.Proofs.LongestMatch
import SqlScript.Proofs.Nearest
import SqlScript.Proofs.Spelling

/-!
# The canonical spelling, token by token

Rendering what was read from some tokens gives as many tokens, each a respelling of the one in its
place (`Token.Respells`): of the same kind and with the same text, except that an integer keeps only
what it denotes, and that a real is written with six places.

A phrase is respelled token by token (`Phrase.Respelled`), which is shown for each kind of phrase
and so for sentences (`Derives.respells`). The words of a statement are what its canonical spelling
is scanned as, so that holds for the statements of every text (`exists_reading_respells`).
-/

namespace SqlScript

/-! ## Respelled tokens -/

/-- The token `u` respells `t`: it has the same kind, and the same text unless `t` is a number. If
`t` is an integer, `u` denotes the same one. If `t` is a real, `u` writes with six places the
single-precision number nearest to what `t` denotes. -/
structure Token.Respells (t u : Token) : Prop where
  kind_eq : u.kind = t.kind
  text_eq : t.kind ≠ .literal .int → t.kind ≠ .literal .real → u.text = t.text
  integer : t.kind = .literal .int →
    ∃ n, DenotesInteger t.text.toList n ∧ DenotesInteger u.text.toList n
  real : t.kind = .literal .real →
    ∃ negative q, DenotesDecimal t.text.toList negative q ∧
      ∃ x : Binary32, x.IsNearest negative q ∧ x.HasSixPlaces u.text.toList

/-- The text of the token is one of its kind, unless the kind has no texts. -/
def Token.InLexicon (t : Token) : Prop :=
  t.kind ≠ .unknown → t.kind ≠ .endOfInput → t.text.toList ∈ t.kind.language

theorem inLexicon_of_mem_tokens {l : Location} {cs : List Char} {t : Token}
    (h : t ∈ tokens l cs) : t.InLexicon := by
  refine forall_mem_tokens (P := Token.InLexicon) ?_ ?_ h
  · exact fun l _ he => absurd rfl he
  · intro c cs l hk _
    rw [String.toList_ofList]
    exact Lexeme.first_belongs c cs hk

namespace Token

variable {t u : Token}

theorem respells_of_eq (hk : u.kind = t.kind) (ht : u.text = t.text) (hi : t.kind ≠ .literal .int)
    (hr : t.kind ≠ .literal .real) : t.Respells u :=
  ⟨hk, fun _ _ => ht, fun h => absurd h hi, fun h => absurd h hr⟩

/-- A respelling may stand anywhere. -/
theorem Respells.of_relocate {f : Location → Location} (h : t.Respells (u.relocate f)) :
    t.Respells u :=
  ⟨h.kind_eq, h.text_eq, h.integer, h.real⟩

/-- A token of a kind with a single text has that text. -/
theorem InLexicon.respells (h : t.InLexicon) (hk : u.kind = t.kind)
    (hl : u.kind.language = {u.text.toList}) (hd : ∀ d, u.kind ≠ .literal d) : t.Respells u := by
  have hu : u.text.toList ∈ u.kind.language := hl ▸ rfl
  have hne : ∀ k : Kind, k.language = 0 → t.kind ≠ k := by
    rintro _ h0 rfl
    rw [hk, h0] at hu
    exact hu
  have hmem := h (hne _ rfl) (hne _ rfl)
  rw [← hk, hl] at hmem
  exact respells_of_eq hk (String.toList_inj.1 hmem).symm (hk ▸ hd _) (hk ▸ hd _)

theorem InLexicon.respells_keyword {k : Keyword} (h : t.InLexicon) (hk : t.kind = .keyword k) :
    t.Respells k.word :=
  h.respells hk.symm rfl nofun

theorem InLexicon.respells_mark {m : Mark} (h : t.InLexicon) (hk : t.kind = .mark m) :
    t.Respells m.word :=
  h.respells hk.symm (by rw [Mark.word, String.toList_ofList]; rfl) nofun

theorem InLexicon.respells_comparison {c : Comparison} (h : t.InLexicon)
    (hk : t.kind = .comparison c) : t.Respells c.word :=
  h.respells hk.symm rfl nofun

theorem respells_nameWord (hk : t.kind = .identifier) : t.Respells (nameWord t.text) :=
  respells_of_eq hk.symm rfl (by simp [hk]) (by simp [hk])

end Token

/-! ## Respelled phrases -/

namespace Phrase

variable {α : Type} {D E : Phrase α} {f : α → List Token} {sep : List Token}

/-- Made of tokens of the lexicon, the phrase is respelled token by token by the words that `f`
gives for what it writes. -/
def Respelled (D : Phrase α) (f : α → List Token) : Prop :=
  ∀ p a, D p a → (∀ t ∈ p, t.InLexicon) → List.Forall₂ Token.Respells p (f a)

theorem Respelled.repeated (h : Respelled D f) :
    Respelled (Repeated D) fun as => as.flatMap f := by
  intro p as hp hx
  induction hp with
  | nil => exact .nil
  | cons hd _ ih =>
    rw [List.forall_mem_append] at hx
    exact List.rel_append (h _ _ hd hx.1) (ih hx.2)

theorem Respelled.afterComma (h : Respelled D f) :
    Respelled (AfterComma D) fun a => [Mark.comma.word] ++ f a := by
  rintro _ a ⟨hc, hd⟩ hx
  obtain ⟨hxc, hxp⟩ := List.forall_mem_cons.1 hx
  exact .cons (hxc.respells_mark hc) (h _ _ hd hxp)

theorem Respelled.oneThen (h : Respelled D f) (h' : Respelled E fun a => sep ++ f a) :
    Respelled (OneThen D E) (separated sep f) := by
  rintro _ _ ⟨hd, hs⟩ hx
  rw [List.forall_mem_append] at hx
  exact List.rel_append (h _ _ hd hx.1) (h'.repeated _ _ hs hx.2)

theorem Respelled.commaList (h : Respelled D f) :
    Respelled (CommaList D) (separated [Mark.comma.word] f) :=
  h.oneThen h.afterComma

theorem respelled_name : Respelled Name fun n => [nameWord n] := by
  rintro _ _ ⟨hk, rfl⟩ _
  exact .cons (Token.respells_nameWord hk) .nil

theorem respelled_names : Respelled Names (separated [] fun n => [nameWord n]) :=
  respelled_name.oneThen respelled_name

/-- A literal is respelled by the word of its value. -/
theorem WritesValue.respells {t : Token} {v : Value} (h : WritesValue t v) : t.Respells v.word := by
  cases h with
  | integer hk hn =>
    refine ⟨hk.symm, fun hi => absurd hk hi, fun _ => ⟨_, hn, denotesInteger_toString _⟩,
      fun hr => ?_⟩
    rw [hk] at hr
    cases hr
  | real hk hq hx =>
    refine ⟨hk.symm, fun _ hr => absurd hk hr, fun hi => ?_,
      fun _ => ⟨_, _, hq, _, hx, Binary32.hasSixPlaces_sixPlaces hx.isFinite⟩⟩
    rw [hk] at hi
    cases hi
  | text hk => exact Token.respells_of_eq hk.symm rfl (by simp [hk]) (by simp [hk])

theorem respelled_value : Respelled OfValue fun v => [v.word] := by
  rintro _ _ ⟨hv⟩ _
  exact .cons hv.respells .nil

theorem WritesOperand.respells {t : Token} {o : Operand} (h : WritesOperand t o) :
    t.Respells o.word := by
  cases h with
  | column hk => exact Token.respells_nameWord hk
  | value hv => exact hv.respells

theorem respelled_column : Respelled OfColumn Column.words := by
  rintro _ _ ⟨hn, hd⟩ hx
  exact .cons (Token.respells_nameWord hn)
    (.cons ((hx _ (by simp)).respells_keyword hd) .nil)

theorem respelled_whereClause : Respelled WhereClause Condition.clauseWords := by
  rintro _ _ (_ | ⟨hw, hl, ho, hr⟩) hx
  · exact .nil
  · exact .cons ((hx _ (by simp)).respells_keyword hw) (.cons hl.respells
      (.cons ((hx _ (by simp)).respells_comparison ho) (.cons hr.respells .nil)))

end Phrase

open Phrase in
/-- **A sentence is respelled token by token** by the words of the statement that it writes. -/
theorem Derives.respells {p : List Token} {st : Statement} (h : Derives p st)
    (hx : ∀ t ∈ p, t.InLexicon) : List.Forall₂ Token.Respells p st.words := by
  cases h with
  | createTable h₁ h₂ hn hl hp hr he =>
    simp only [List.forall_mem_cons, List.forall_mem_append] at hx
    obtain ⟨x₁, x₂, -, xl, xp, xr, xe, -⟩ := hx
    exact .cons (x₁.respells_keyword h₁) (.cons (x₂.respells_keyword h₂)
      (.cons (Token.respells_nameWord hn) (.cons (xl.respells_mark hl)
        (List.rel_append (respelled_column.commaList _ _ hp xp)
          (.cons (xr.respells_mark hr) (.cons (xe.respells_mark he) .nil))))))
  | select h₁ hp h₂ hn hq he =>
    simp only [List.forall_mem_cons, List.forall_mem_append] at hx
    obtain ⟨x₁, xp, x₂, -, xq, xe, -⟩ := hx
    exact .cons (x₁.respells_keyword h₁) (List.rel_append (respelled_names _ _ hp xp)
      (.cons (x₂.respells_keyword h₂) (.cons (Token.respells_nameWord hn)
        (List.rel_append (respelled_whereClause _ _ hq xq) (.cons (xe.respells_mark he) .nil)))))
  | insert h₁ h₂ hn hl hp hr h₃ hl' hq hr' he =>
    simp only [List.forall_mem_cons, List.forall_mem_append] at hx
    obtain ⟨x₁, x₂, -, xl, xp, xr, x₃, xl', xq, xr', xe, -⟩ := hx
    exact .cons (x₁.respells_keyword h₁) (.cons (x₂.respells_keyword h₂)
      (.cons (Token.respells_nameWord hn) (.cons (xl.respells_mark hl)
        (List.rel_append (respelled_name.commaList _ _ hp xp) (.cons (xr.respells_mark hr)
          (.cons (x₃.respells_keyword h₃) (.cons (xl'.respells_mark hl')
            (List.rel_append (respelled_value.commaList _ _ hq xq)
              (.cons (xr'.respells_mark hr') (.cons (xe.respells_mark he) .nil))))))))))
  | delete h₁ h₂ hn hq he =>
    simp only [List.forall_mem_cons, List.forall_mem_append] at hx
    obtain ⟨x₁, x₂, -, xq, xe, -⟩ := hx
    exact .cons (x₁.respells_keyword h₁) (.cons (x₂.respells_keyword h₂)
      (.cons (Token.respells_nameWord hn)
        (List.rel_append (respelled_whereClause _ _ hq xq) (.cons (xe.respells_mark he) .nil))))
  | dropTable h₁ h₂ hn he =>
    simp only [List.forall_mem_cons] at hx
    obtain ⟨x₁, x₂, -, xe, -⟩ := hx
    exact .cons (x₁.respells_keyword h₁) (.cons (x₂.respells_keyword h₂)
      (.cons (Token.respells_nameWord hn) (.cons (xe.respells_mark he) .nil)))

/-! ## Statements of a text -/

/-- The canonical spelling of a well-formed statement has its words, and the end of input. -/
theorem Statement.exists_drain_render {st : Statement} (h : st.WellFormed) :
    ∃ ws e, (Scanner.ofString st.render).drain.1 = ws ++ [e] ∧ e.kind = .endOfInput ∧
      ws.map (Token.relocate fun _ => .start) = st.words := by
  have hw := st.words_append h []
  rw [List.append_nil, words_nil, SqlScript.words] at hw
  obtain ⟨ws, es, hdrain, hws, hes⟩ := List.map_eq_append_iff.1 hw
  obtain ⟨e, rfl, he⟩ := List.map_eq_singleton_iff.1 hes
  refine ⟨ws, e, ?_, ?_, hws⟩
  · exact (Scanner.remaining_of_pending_none rfl).trans hdrain
  · exact congrArg Token.kind he

/-- A segment that is read as a statement is a sentence. -/
theorem IsSegment.derives_of_attempt {seg : List Token} (h : IsSegment seg)
    (hend : ∀ t ∈ seg, t.isEnd = false) {l : Location} {st : Statement}
    (hat : (attempt (⟨seg, l⟩ : Tape)).1 = .parsed st) :
    Derives seg st ∧ ∃ q e, seg = q ++ [e] ∧ isOpen q = true ∧ e.kind = .mark .semicolon := by
  rcases h with ho | ⟨q, e, rfl, hq, he⟩
  · obtain ⟨_, _, ha⟩ := Tape.attempt_isPlain (Tape.isPlain_of_isOpen ho hend) l
    rw [ha] at hat
    cases hat
  · refine ⟨?_, q, e, rfl, hq, he⟩
    obtain ⟨p, r, hp, hd⟩ := Tape.exists_derives_of_attempt hat
    obtain ⟨p', e', rfl, he'⟩ := hd.exists_concat
    -- the only semicolon of the segment is its last token, so nothing is left behind the sentence
    rcases List.eq_nil_or_concat r with rfl | ⟨r', t, rfl⟩
    · rw [List.append_nil] at hp
      exact hp ▸ hd
    · rw [List.concat_eq_append, ← List.append_assoc] at hp
      have hmem' : e' ∈ q := by
        rw [(List.append_inj' hp rfl).1]
        simp
      have := List.all_eq_true.1 hq e' hmem'
      simp [he'] at this

/-- **Rendering loses nothing but layout and the spelling of numbers.** Whatever the text, each
statement that is read from it uses up tokens with a semicolon at their end and nowhere else. Its
canonical spelling has as many tokens before the end of input, none of them unknown, and each is a
respelling of the one in its place. -/
theorem exists_reading_respells (text : String) :
    ∃ run s', Reading (.ofString text) run s' ∧ s'.take.1.isEnd = true ∧
      run.map Prod.fst = segments (properTokens text) ∧
      parseScript text = .ofAttempts (run.map Prod.snd) ∧
      Contribute (run.map Prod.snd) (parseScript text).script.statements
        (parseScript text).errors ∧
      ∀ p st, (p, .parsed st) ∈ run →
        (∃ q e, p = q ++ [e] ∧ isOpen q = true ∧ e.kind = .mark .semicolon) ∧
        ∃ ws e, (Scanner.ofString st.render).drain.1 = ws ++ [e] ∧ e.kind = .endOfInput ∧
          List.Forall₂ Token.Respells p ws ∧
          ∀ w ∈ ws, w.kind ≠ .unknown ∧ w.kind ≠ .endOfInput := by
  obtain ⟨l, run, s', hrun, hs', hremaining, hfst, hat⟩ := exists_reading_tape text
  obtain ⟨hp, hcontribute⟩ := hrun.contribute
  refine ⟨run, s', hrun, hs', hfst, hp, hcontribute, fun p st hmem => ?_⟩
  obtain ⟨hseg, hproper, ha⟩ := hat _ hmem
  obtain ⟨hd, hsemicolon⟩ := hseg.derives_of_attempt
    (fun t ht => isEnd_eq_false_of_mem_properTokens (hproper t ht)) ha.symm
  have htokens : tokens .start text.toList = properTokens text ++ [.endOfInput l] :=
    (Scanner.remaining_of_pending_none (s := .ofString text) rfl).symm.trans hremaining
  have hmem' : ∀ t ∈ p, t ∈ tokens .start text.toList := fun t ht =>
    htokens ▸ List.mem_append_left _ (hproper t ht)
  have hr := hd.respells fun t ht => inLexicon_of_mem_tokens (hmem' t ht)
  obtain ⟨ws, e, hdrain, he, hws⟩ :=
    st.exists_drain_render (hd.wellFormed fun t ht => wellSpelled_of_mem_tokens (hmem' t ht))
  rw [← hws, List.forall₂_map_right_iff] at hr
  refine ⟨hsemicolon, ws, e, hdrain, he, hr.imp fun _ _ h => h.of_relocate, fun w hw => ?_⟩
  refine st.forall_mem_words (P := fun w => w.kind ≠ .unknown ∧ w.kind ≠ .endOfInput)
    ?_ ?_ ?_ ?_ ?_ (w.relocate fun _ => .start) (hws ▸ List.mem_map_of_mem hw)
  all_goals exact fun _ => ⟨nofun, nofun⟩

end SqlScript
