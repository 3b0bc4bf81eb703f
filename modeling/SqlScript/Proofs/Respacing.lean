import SqlScript.Proofs.Layout

/-!
# Other blanks between the same tokens

A lexeme that is a whole text stays the first one if a blank and more stand behind it
(`Lexeme.stays_first`), except that a quote without a second one goes on to the end of its line.
Each token of a text is such a lexeme (`Token.standsAlone_of_mem_properTokens`), so it is the only
token of its own text, and the tokens can be written down again with any blanks between them
(`drain_respaced`).
-/

namespace SqlScript

/-! ## Tokens that stand alone -/

open Lexeme

namespace Token

/-- The token starts with a quote and has no second one. -/
def IsOpenQuote (t : Token) : Prop := t.kind = .unknown ∧ t.text.toList.head? = some '"'

/-- The text of the token is one lexeme of its kind. -/
def StandsAlone (t : Token) : Prop :=
  ∃ c r, t.text.toList = c :: r ∧ isBlank c = false ∧ first c r = ⟨t.kind, c :: r, []⟩

/-- The token ends in front of the text: the text is empty, or it starts with a blank, and with a
line feed if the token is a quote without a second one. -/
def EndsBefore (t : Token) (b : List Char) : Prop :=
  ∀ d ∈ b.head?, isBlank d = true ∧ (t.IsOpenQuote → d = '\n')

/-- **A token of a text is one by itself**, also one whose kind was settled by what is behind it. -/
theorem standsAlone_of_mem_properTokens {text : String} {t : Token} (h : t ∈ properTokens text) :
    t.StandsAlone := by
  obtain ⟨htokens, hpiece⟩ := tokens_eq_properTokens_append text
  obtain ⟨c, r, hcr, hc⟩ := (hpiece t h).exists_cons
  have hmem : t ∈ tokens .start text.toList := htokens ▸ List.mem_append_left _ h
  have hfirst : t.isEnd = false →
      ∃ c r, t.text.toList = c :: r ∧ first c r = ⟨t.kind, c :: r, []⟩ := by
    refine forall_mem_tokens (P := fun t => t.isEnd = false →
      ∃ c r, t.text.toList = c :: r ∧ first c r = ⟨t.kind, c :: r, []⟩) nofun ?_ hmem
    intro c r _ _
    obtain ⟨w, hw⟩ := exists_chars_first_eq_cons c r
    refine ⟨c, w, by rw [String.toList_ofList, hw], ?_⟩
    rw [first_of_append (r := []) rfl (by rw [List.append_nil, hw]), hw]
  obtain ⟨c', r', hcr', hone⟩ := hfirst (isEnd_eq_false_of_mem_properTokens h)
  obtain ⟨rfl, rfl⟩ := List.cons.inj (hcr.symm.trans hcr')
  exact ⟨c, r, hcr, hc, hone⟩

/-- **A token that stands alone is the first one wherever it ends.** -/
theorem StandsAlone.tokens_append {t : Token} (h : t.StandsAlone) {b : List Char}
    (hb : t.EndsBefore b) (l : Location) :
    tokens l (t.text.toList ++ b) = ⟨t.kind, t.text, l⟩ :: tokens (l.after t.text.toList) b := by
  obtain ⟨c, r, hcr, hc, hone⟩ := h
  have hfirst : first c (r ++ b) = ⟨t.kind, c :: r, b⟩ := by
    have hstays := stays_first c r b
    rw [hone] at hstays
    refine hstays fun _ d hd => ?_
    obtain ⟨hblank, hline⟩ := hb d hd
    exact ⟨hblank, fun hk hquote => hline ⟨hk, by rw [hcr]; exact hquote⟩⟩
  have htext : String.ofList (c :: r) = t.text := by rw [← hcr, String.ofList_toList]
  rw [hcr, List.cons_append, tokens_cons_of_not_isBlank hc, hfirst]
  simp only [htext]

theorem StandsAlone.drain_eq {t : Token} (h : t.StandsAlone) :
    (Scanner.ofString t.text).drain.1 =
      [⟨t.kind, t.text, .start⟩, .endOfInput (Location.start.after t.text.toList)] := by
  have htokens := h.tokens_append (b := []) nofun .start
  rw [List.append_nil, @tokens_of_isBlank [] nofun] at htokens
  rw [drain_eq_tokens, htokens]
  rfl

end Token

/-! ## The same tokens with other blanks -/

/-- The tokens one behind another, with a gap in front of the first one and one behind each. -/
def respaced (lead : String) : List Token → List String → String
  | t :: ts, gap :: gaps => lead ++ t.text ++ respaced gap ts gaps
  | _, _ => lead

/-- One gap behind each token: it is made of blanks, starts with a line feed behind a quote without
a second one, and is not empty between two tokens. -/
inductive Gaps : List Token → List String → Prop
  | nil : Gaps [] []
  | cons {t : Token} {ts : List Token} {gap : String} {gaps : List String}
      (hblank : ∀ c ∈ gap.toList, isBlank c = true)
      (hline : t.IsOpenQuote → ∀ d ∈ gap.toList.head?, d = '\n') (hne : ts ≠ [] → gap ≠ "")
      (h : Gaps ts gaps) : Gaps (t :: ts) (gap :: gaps)

/-- A token ends in front of its gap and the tokens behind. -/
theorem Token.endsBefore_respaced {t : Token} {ts : List Token} {gap : String} {gaps : List String}
    (hblank : ∀ c ∈ gap.toList, isBlank c = true)
    (hline : t.IsOpenQuote → ∀ d ∈ gap.toList.head?, d = '\n') (hne : ts ≠ [] → gap ≠ "") :
    t.EndsBefore (respaced gap ts gaps).toList := by
  have hgap : t.EndsBefore gap.toList := fun d hd =>
    ⟨hblank d (List.mem_of_mem_head? hd), fun ht => hline ht d hd⟩
  rcases ts with _ | ⟨u, ts⟩
  · exact hgap
  rcases gaps with _ | ⟨gap', gaps⟩
  · exact hgap
  · obtain ⟨d, r, hdr⟩ := List.exists_cons_of_ne_nil (mt String.toList_eq_nil_iff.1 (hne nofun))
    rw [hdr] at hgap
    rw [respaced, String.append_assoc, String.toList_append, hdr]
    exact hgap

/-- **The tokens are read again, whatever blanks are in the gaps.** -/
theorem Gaps.exists_tokens_respaced {ts : List Token} {gaps : List String} (h : Gaps ts gaps)
    (hts : ∀ t ∈ ts, t.StandsAlone) {lead : String} (hlead : ∀ c ∈ lead.toList, isBlank c = true)
    (l : Location) :
    ∃ us e, tokens l (respaced lead ts gaps).toList = us ++ [.endOfInput e] ∧
      List.Forall₂ Token.SameWord ts us := by
  induction h generalizing lead l with
  | nil => exact ⟨[], _, tokens_of_isBlank hlead l, .nil⟩
  | @cons t ts gap gaps hblank hline hne _ ih =>
    obtain ⟨halone, hts⟩ := List.forall_mem_cons.1 hts
    obtain ⟨us, e, hus, hwords⟩ := ih hts hblank ((l.after lead.toList).after t.text.toList)
    refine ⟨⟨t.kind, t.text, l.after lead.toList⟩ :: us, e, ?_, .cons ⟨rfl, rfl⟩ hwords⟩
    rw [respaced, String.append_assoc, String.toList_append, String.toList_append,
      tokens_append_of_isBlank hlead,
      halone.tokens_append (Token.endsBefore_respaced hblank hline hne), hus]
    rfl

/-- **Other blanks do not change the tokens.** Write the tokens of a text one behind another, with
any blanks in front of them, between each two and behind the last one: at least one between two, and
first a line feed behind a token that is unknown and starts with a quote. The new text has the same
tokens, elsewhere. In particular each token of a text is the only one of its own text, with the same
kind. -/
theorem drain_respaced (text lead : String) (gaps : List String)
    (hlead : ∀ c ∈ lead.toList, isBlank c = true) (hgaps : Gaps (properTokens text) gaps) :
    (∃ us e, (Scanner.ofString (respaced lead (properTokens text) gaps)).drain.1 =
        us ++ [.endOfInput e] ∧
      List.Forall₂ Token.SameWord (properTokens text) us) ∧
    ∀ t ∈ properTokens text, (Scanner.ofString t.text).drain.1 =
      [⟨t.kind, t.text, .start⟩, .endOfInput (Location.start.after t.text.toList)] := by
  refine ⟨?_, fun t ht => (Token.standsAlone_of_mem_properTokens ht).drain_eq⟩
  rw [drain_eq_tokens]
  exact hgaps.exists_tokens_respaced (fun t => Token.standsAlone_of_mem_properTokens) hlead _

/-- A quote that is never closed, and numbers and signs that touched each other. -/
theorem drain_respaced_split_numbers :
    Gaps (properTokens "01-\"a b\n!") ["\t", "\r\n", " ", "\n\x0c", ""] ∧
      respaced " " (properTokens "01-\"a b\n!") ["\t", "\r\n", " ", "\n\x0c", ""] =
        " 0\t1\r\n- \"a b\n\x0c!" ∧
      ∃ us e, (Scanner.ofString " 0\t1\r\n- \"a b\n\x0c!").drain.1 = us ++ [.endOfInput e] ∧
        List.Forall₂ Token.SameWord (properTokens "01-\"a b\n!") us := by
  have htokens : properTokens "01-\"a b\n!" =
      [⟨.literal .int, "0", ⟨0, 1, 1⟩⟩, ⟨.literal .int, "1", ⟨1, 1, 2⟩⟩, ⟨.unknown, "-", ⟨2, 1, 3⟩⟩,
        ⟨.unknown, "\"a b", ⟨3, 1, 4⟩⟩, ⟨.unknown, "!", ⟨8, 2, 1⟩⟩] := by
    decide +kernel
  have hgaps : Gaps (properTokens "01-\"a b\n!") ["\t", "\r\n", " ", "\n\x0c", ""] := by
    rw [htokens]
    refine .cons ?_ ?_ ?_ (.cons ?_ ?_ ?_ (.cons ?_ ?_ ?_ (.cons ?_ ?_ ?_ (.cons ?_ ?_ ?_ .nil))))
    all_goals simp [isBlank, Token.IsOpenQuote]
  have htext : respaced " " (properTokens "01-\"a b\n!") ["\t", "\r\n", " ", "\n\x0c", ""] =
      " 0\t1\r\n- \"a b\n\x0c!" := by
    decide +kernel
  have hdrain := (drain_respaced _ " " _ (by simp [isBlank]) hgaps).1
  rw [htext] at hdrain
  exact ⟨hgaps, htext, hdrain⟩

end SqlScript
