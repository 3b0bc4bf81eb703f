import SqlScript.Proofs.Digits
import SqlScript.Proofs.Upcoming

/-!
# The words of a text

`words` gives the tokens of a text without their positions. Blanks in front of a text do not
change its words (`words_cons_of_isBlank`), and a mark or a token in front of a text is a word in
front of its words (`words_char`, `Lexes.words_append`). A token needs something behind it that
ends it: `Lexes k w` says that the characters `w` are one token of the kind `k` in front of a
space, a comma, a closing parenthesis or a semicolon.

The second half shows this for every kind of token that a tree is spelled with. A script is read
by its words alone (`relocate_parseScript`).
-/

namespace SqlScript

open Lexeme

/-! ## Words -/

theorem tokens_of_dropWhile_nil {l : Location} {cs : List Char} (h : cs.dropWhile isBlank = []) :
    tokens l cs = [.endOfInput (l.after (cs.takeWhile isBlank))] := by
  rw [tokens]
  simp [scan, h, Token.isEnd, Token.endOfInput]

theorem tokens_of_dropWhile_cons {l : Location} {cs : List Char} {c : Char} {r : List Char}
    (h : cs.dropWhile isBlank = c :: r) :
    tokens l cs = ⟨(first c r).kind, String.ofList (first c r).chars,
      l.after (cs.takeWhile isBlank)⟩ ::
        tokens ((l.after (cs.takeWhile isBlank)).after (first c r).chars) (first c r).rest := by
  rw [tokens]
  simp [scan, h, Token.isEnd, kind_first_ne_endOfInput]

theorem length_rest_first_lt_of_dropWhile {cs : List Char} {c : Char} {r : List Char}
    (h : cs.dropWhile isBlank = c :: r) : (first c r).rest.length < cs.length := by
  have hle := (List.dropWhile_sublist isBlank (l := cs)).length_le
  rw [h] at hle
  exact Nat.lt_of_lt_of_le (length_rest_first_lt c r) hle

/-- What holds of the end of input and of whatever a text starts with holds of every token. -/
theorem forall_mem_tokens {P : Token → Prop} (hend : ∀ l, P (.endOfInput l))
    (hfirst : ∀ c r l, P ⟨(first c r).kind, String.ofList (first c r).chars, l⟩)
    {l : Location} {cs : List Char} {t : Token} (h : t ∈ tokens l cs) : P t := by
  induction hn : cs.length using Nat.strongRecOn generalizing l cs with
  | ind n ih =>
    cases hd : cs.dropWhile isBlank with
    | nil =>
      rw [tokens_of_dropWhile_nil hd, List.mem_singleton] at h
      exact h ▸ hend _
    | cons c r =>
      rw [tokens_of_dropWhile_cons hd, List.mem_cons] at h
      rcases h with rfl | h
      · exact hfirst c r _
      · exact ih _ (hn ▸ length_rest_first_lt_of_dropWhile hd) h rfl

/-- The tokens of a text, all at one place. -/
def words (cs : List Char) : List Token := (tokens .start cs).map (Token.relocate fun _ => .start)

/-- The words do not depend on where the text starts. -/
theorem map_relocate_tokens (l : Location) (cs : List Char) :
    (tokens l cs).map (Token.relocate fun _ => .start) = words cs := by
  suffices ∀ l', (tokens l cs).map (Token.relocate fun _ => .start) =
      (tokens l' cs).map (Token.relocate fun _ => .start) from this .start
  intro l'
  -- by induction on the length of the text, which every token shortens
  induction hn : cs.length using Nat.strongRecOn generalizing cs l l' with
  | ind n ih =>
    cases hd : cs.dropWhile isBlank with
    | nil =>
      rw [tokens_of_dropWhile_nil hd, tokens_of_dropWhile_nil hd]
      rfl
    | cons c r =>
      have hlt := hn ▸ length_rest_first_lt_of_dropWhile hd
      rw [tokens_of_dropWhile_cons hd, tokens_of_dropWhile_cons hd, List.map_cons, List.map_cons,
        ih _ hlt _ _ _ rfl]
      rfl

theorem words_of_dropWhile_nil {cs : List Char} (h : cs.dropWhile isBlank = []) :
    words cs = [.endOfInput .start] := by
  rw [words, tokens_of_dropWhile_nil h]
  rfl

theorem words_of_dropWhile_cons {cs : List Char} {c : Char} {r : List Char}
    (h : cs.dropWhile isBlank = c :: r) :
    words cs = ⟨(first c r).kind, String.ofList (first c r).chars, .start⟩ ::
      words (first c r).rest := by
  rw [words, tokens_of_dropWhile_cons h, List.map_cons, map_relocate_tokens]
  rfl

@[simp] theorem words_nil : words [] = [.endOfInput .start] := words_of_dropWhile_nil rfl

/-- A blank in front is no word. -/
theorem words_cons_of_isBlank {c : Char} (hc : isBlank c = true) (cs : List Char) :
    words (c :: cs) = words cs := by
  have he : (c :: cs).dropWhile isBlank = cs.dropWhile isBlank := List.dropWhile_cons_of_pos hc
  cases hd : cs.dropWhile isBlank with
  | nil => rw [words_of_dropWhile_nil hd, words_of_dropWhile_nil (he.trans hd)]
  | cons d r => rw [words_of_dropWhile_cons hd, words_of_dropWhile_cons (he.trans hd)]

theorem words_cons_of_not_isBlank {c : Char} (hc : isBlank c = false) (cs : List Char) :
    words (c :: cs) = ⟨(first c cs).kind, String.ofList (first c cs).chars, .start⟩ ::
      words (first c cs).rest :=
  words_of_dropWhile_cons (by simp [hc])

/-! ## What a text is read as -/

/-- The tokens ahead of a scanner with nothing pending are those of its text. -/
theorem Scanner.remaining_of_pending_none {s : Scanner} (h : s.pending = none) :
    s.remaining = tokens s.location s.rest := by
  induction hn : s.size using Nat.strongRecOn generalizing s with
  | ind n ih =>
    have ht : s.take = ((scan s.location s.rest).token,
        { s with
          rest := (scan s.location s.rest).rest
          location := (scan s.location s.rest).location }) := by
      simp only [take, h]
    rw [tokens]
    cases he : s.take.1.isEnd with
    | true =>
      rw [remaining_of_isEnd he, if_pos (by rw [ht] at he; exact he), ht]
    | false =>
      rw [remaining_of_not_isEnd he, if_neg (by rw [ht] at he; simp [he]),
        ih _ (hn ▸ size_take_lt he) (by rw [ht]; exact h) rfl, ht]

/-- A text is read as the tape of its tokens. -/
theorem exists_parseScript_eq (text : String) : ∃ ts l,
    tokens .start text.toList = ts ++ [.endOfInput l] ∧ (∀ t ∈ ts, t.isEnd = false) ∧
      parseScript text = (parse (⟨ts, l⟩ : Tape)).1 := by
  have hstart : (Scanner.ofString text).Reachable text := .start
  obtain ⟨⟨ts, l⟩, ht⟩ := hstart.exists_readsAs
  have hr := ht.remaining_eq
  rw [Scanner.remaining_of_pending_none rfl] at hr
  refine ⟨ts, l, hr, ht.isEnd_eq_false, ?_⟩
  rw [Scanner.simulation_readsAs.parse ht, Outcome.relocate_id]
  rfl

/-- **A script is read by its words**: where they stand shows in the errors only. -/
theorem relocate_parseScript {text : String} {ts : List Token}
    (h : words text.toList = ts ++ [.endOfInput .start]) :
    (parseScript text).relocate (fun _ => .start) = (parse (⟨ts, .start⟩ : Tape)).1 := by
  obtain ⟨us, l, hus, -, hp⟩ := exists_parseScript_eq text
  rw [words, hus, List.map_append] at h
  obtain rfl := (List.append_inj' h rfl).1
  rw [hp]
  exact ((Tape.simulation_relocate fun _ => .start).parse rfl).symm

/-! ## What may follow a token -/

/-- The characters that stand behind a token in the canonical spelling. -/
def delimiters : List Char := [' ', ',', ')', ';']

/-- The text starts with a delimiter. -/
def Delimited (r : List Char) : Prop := ∃ d ∈ delimiters, ∃ r', r = d :: r'

theorem delimited_cons {d : Char} (h : d ∈ delimiters) (r : List Char) : Delimited (d :: r) :=
  ⟨d, h, r, rfl⟩

/-- A run of characters ends at a delimiter. -/
theorem Delimited.takeWhile_append {p : Char → Bool} {w r : List Char} (hr : Delimited r)
    (hp : delimiters.any p = false) (hw : ∀ c ∈ w, p c = true) :
    (w ++ r).takeWhile p = w ∧ (w ++ r).dropWhile p = r := by
  obtain ⟨d, hd, r', rfl⟩ := hr
  have hd' := List.any_eq_false.1 hp d hd
  rw [List.takeWhile_append_of_pos hw, List.dropWhile_append_of_pos hw,
    List.takeWhile_cons_of_neg hd', List.dropWhile_cons_of_neg hd', List.append_nil]
  exact ⟨rfl, rfl⟩

/-- The characters are one token of the kind, in front of any delimiter. -/
def Lexes (k : Kind) (w : List Char) : Prop :=
  ∃ c cs, w = c :: cs ∧ isBlank c = false ∧ ∀ r, Delimited r → first c (cs ++ r) = ⟨k, w, r⟩

/-- A token in front of a delimiter is a word in front of the words behind it. -/
theorem Lexes.words_append {k : Kind} {s : String} (h : Lexes k s.toList) {r : List Char}
    (hr : Delimited r) : words (s.toList ++ r) = ⟨k, s, .start⟩ :: words r := by
  obtain ⟨c, cs, hs, hb, hf⟩ := h
  rw [hs, List.cons_append, words_cons_of_not_isBlank hb, hf r hr]
  simp only [String.ofList_toList]

namespace Lexeme

theorem first_char (m : Mark) (cs : List Char) : first m.char cs = ⟨.mark m, [m.char], cs⟩ := by
  rw [first, Mark.ofChar?_char]

theorem isAlphanum_of_isAlpha {c : Char} (h : c.isAlpha = true) : c.isAlphanum = true := by
  simp [Char.isAlphanum, h]

theorem isAlphanum_of_isDigit {c : Char} (h : c.isDigit = true) : c.isAlphanum = true := by
  simp [Char.isAlphanum, h]

theorem not_isBlank_of_isAlphanum {c : Char} (h : c.isAlphanum = true) : isBlank c = false := by
  rw [isBlank]
  simp only [Bool.or_eq_false_iff, decide_eq_false_iff_not]
  refine ⟨⟨⟨⟨?_, ?_⟩, ?_⟩, ?_⟩, ?_⟩ <;> rintro rfl <;> exact absurd h (by decide)

theorem ofChar?_eq_none_of_isAlphanum {c : Char} (h : c.isAlphanum = true) :
    Mark.ofChar? c = none := by
  cases hm : Mark.ofChar? c with
  | none => rfl
  | some m =>
    obtain rfl := Mark.char_of_ofChar? hm
    cases m <;> exact absurd h (by decide)

theorem first_of_isAlpha {c : Char} (h : c.isAlpha = true) (cs : List Char) :
    first c cs = word (c :: cs) := by
  rw [first, ofChar?_eq_none_of_isAlphanum (isAlphanum_of_isAlpha h)]
  exact if_pos h

theorem not_isAlpha_of_isDigit {c : Char} (h : c.isDigit = true) : c.isAlpha = false := by
  obtain ⟨h₁, h₂⟩ : 48 ≤ c.toNat ∧ c.toNat ≤ 57 := Char.isDigit_iff_toNat.1 h
  unfold Char.isAlpha Char.isUpper Char.isLower
  simp [UInt32.le_iff_toNat_le]
  omega

theorem first_of_isDigit {c : Char} (h : c.isDigit = true) (cs : List Char) :
    first c cs = number [] (c :: cs) := by
  rw [first, ofChar?_eq_none_of_isAlphanum (isAlphanum_of_isDigit h)]
  simp only [not_isAlpha_of_isDigit h, h, Bool.false_eq_true, if_false, if_true]

theorem first_minus {d : Char} (h : d.isDigit = true) (cs : List Char) :
    first '-' (d :: cs) = number ['-'] (d :: cs) := by
  rw [show first '-' (d :: cs) = signed '-' (d :: cs) from rfl, signed, if_pos h]

end Lexeme

/-- The mark as a word. -/
def Mark.word (m : Mark) : Token := ⟨.mark m, String.ofList [m.char], .start⟩

/-- A mark is a word in front of anything. -/
theorem words_char (m : Mark) (cs : List Char) : words (m.char :: cs) = m.word :: words cs := by
  rw [words_cons_of_not_isBlank (by cases m <;> rfl), first_char]
  rfl

/-! ## Names and keywords -/

/-- The text can name a table or a column. -/
def IsName (s : String) : Prop :=
  ∃ c cs, s.toList = c :: cs ∧ c.isAlpha = true ∧ (∀ d ∈ cs, d.isAlphanum = true) ∧
    ∀ k : Keyword, k.spelling ≠ s

theorem lexes_word {c : Char} {cs : List Char} (hc : c.isAlpha = true)
    (hcs : ∀ d ∈ cs, d.isAlphanum = true) : Lexes (wordKind (c :: cs)) (c :: cs) := by
  have hc' := isAlphanum_of_isAlpha hc
  refine ⟨c, cs, rfl, not_isBlank_of_isAlphanum hc', fun r hr => ?_⟩
  obtain ⟨ht, hd⟩ := hr.takeWhile_append (p := Char.isAlphanum) (by decide)
    (List.forall_mem_cons.2 ⟨hc', hcs⟩)
  rw [first_of_isAlpha hc, word, ← List.cons_append, ht, hd]

theorem wordKind_eq_identifier_iff {w : List Char} :
    wordKind w = .identifier ↔ ∀ k : Keyword, k.spelling ≠ String.ofList w := by
  unfold wordKind
  constructor
  · intro h k hk
    rw [← hk, Keyword.ofSpelling?_spelling] at h
    cases h
  · intro h
    cases hk : Keyword.ofSpelling? (String.ofList w) with
    | none => rfl
    | some k => exact absurd (Keyword.spelling_of_ofSpelling? hk) (h k)

theorem IsName.lexes {s : String} (h : IsName s) : Lexes .identifier s.toList := by
  obtain ⟨c, cs, hs, hc, hcs, hk⟩ := h
  rw [← wordKind_eq_identifier_iff (w := s.toList) |>.2 (by rwa [String.ofList_toList]), hs]
  exact lexes_word hc hcs

/-- The keyword as a word. -/
def Keyword.word (k : Keyword) : Token := ⟨.keyword k, k.spelling, .start⟩

theorem Keyword.lexes (k : Keyword) : Lexes (.keyword k) k.spelling.toList := by
  have hk : wordKind k.spelling.toList = .keyword k := by
    rw [wordKind, String.ofList_toList, ofSpelling?_spelling]
  have hw : ∃ c cs, k.spelling.toList = c :: cs ∧ c.isAlpha = true ∧
      cs.all Char.isAlphanum = true := by
    cases k with
    | type d => cases d <;> exact ⟨_, _, rfl, by decide, by decide⟩
    | _ => exact ⟨_, _, rfl, by decide, by decide⟩
  obtain ⟨c, cs, hs, hc, hcs⟩ := hw
  rw [← hk, hs]
  exact lexes_word hc (List.all_eq_true.1 hcs)

theorem Comparison.lexes (c : Comparison) : Lexes (.comparison c) c.spelling.toList := by
  cases c
  all_goals
    refine ⟨_, _, rfl, by decide, ?_⟩
    rintro _ ⟨d, hd, r, rfl⟩
    simp only [delimiters, List.mem_cons, List.not_mem_nil, or_false] at hd
    rcases hd with rfl | rfl | rfl | rfl <;> rfl

/-! ## Quoted texts -/

/-- The text is a literal of the language: quotes around characters that are neither quotes nor
line feeds. -/
def IsQuoted (s : String) : Prop :=
  ∃ body, s.toList = '"' :: (body ++ ['"']) ∧ ∀ c ∈ body, isQuotable c = true

theorem IsQuoted.lexes {s : String} (h : IsQuoted s) : Lexes (.literal .text) s.toList := by
  obtain ⟨body, hs, hb⟩ := h
  refine ⟨_, _, hs, by decide, fun r _ => ?_⟩
  rw [List.append_assoc, List.singleton_append,
    show first '"' (body ++ '"' :: r) = quoted (body ++ '"' :: r) from rfl, quoted,
    List.takeWhile_append_of_pos hb, List.dropWhile_append_of_pos hb,
    List.takeWhile_cons_of_neg (by decide), List.dropWhile_cons_of_neg (by decide),
    List.append_nil, hs]
  rfl

/-! ## Numbers -/

/-- The digits of a natural number are a whole integer part. -/
theorem wholePart_toDigits (n : Nat) {r : List Char} (hr : ∀ c ∈ r.head?, c.isDigit = false) :
    wholePart (Nat.toDigits 10 n ++ r) = (Nat.toDigits 10 n, r) := by
  have hdig : ∀ c ∈ Nat.toDigits 10 n, c.isDigit = true := fun _ => isDigit_of_mem_toDigits
  unfold wholePart
  split
  · next r' he =>
    obtain ⟨d, ds, hd, -⟩ := exists_toDigits_eq_cons n
    rw [hd, List.cons_append] at he
    obtain ⟨rfl, rfl⟩ := List.cons.inj he
    obtain rfl := eq_zero_of_toDigits_eq_cons hd
    obtain ⟨-, rfl⟩ := List.cons.inj hd
    rfl
  · rw [List.takeWhile_append_of_pos hdig, List.dropWhile_append_of_pos hdig]
    rcases r with _ | ⟨c, r⟩
    · simp
    · have hc := hr c rfl
      simp [hc]

/-- A number is one token, with or without a minus sign. -/
theorem lexes_number {k : Kind} {d : Char} {ds : List Char} (hd : d.isDigit = true)
    (h : ∀ sign r, Delimited r → number sign (d :: ds ++ r) = ⟨k, sign ++ d :: ds, r⟩)
    (negative : Bool) : Lexes k ((if negative then ['-'] else []) ++ d :: ds) := by
  cases negative with
  | true =>
    refine ⟨'-', d :: ds, rfl, by decide, fun r hr => ?_⟩
    rw [List.cons_append, first_minus hd]
    exact h ['-'] r hr
  | false =>
    have hb := not_isBlank_of_isAlphanum (isAlphanum_of_isDigit hd)
    refine ⟨d, ds, rfl, hb, fun r hr => ?_⟩
    rw [first_of_isDigit hd]
    exact h [] r hr

theorem lexes_whole (negative : Bool) (n : Nat) :
    Lexes (.literal .int) ((if negative then ['-'] else []) ++ Nat.toDigits 10 n) := by
  obtain ⟨d, ds, hds, hd⟩ := exists_toDigits_eq_cons n
  rw [hds]
  refine lexes_number hd (fun sign r hr => ?_) negative
  obtain ⟨c, hc, r', rfl⟩ := hr
  have hany : delimiters.any (fun c => c.isDigit || c = '.') = false := by decide
  obtain ⟨hdig, hpoint⟩ : c.isDigit = false ∧ c ≠ '.' := by
    simpa using List.any_eq_false.1 hany c hc
  rw [← hds, number, wholePart_toDigits n (by simp [hdig])]
  split
  · next he =>
    simp only [Prod.mk.injEq, List.cons.injEq] at he
    exact absurd he.2.1 hpoint
  · next he =>
    obtain ⟨rfl, rfl⟩ := Prod.mk.inj he
    rfl

theorem lexes_real (negative : Bool) (n : Nat) {es : List Char} (hes : ∀ c ∈ es, c.isDigit = true) :
    Lexes (.literal .real)
      ((if negative then ['-'] else []) ++ (Nat.toDigits 10 n ++ '.' :: es)) := by
  obtain ⟨d, ds, hds, hd⟩ := exists_toDigits_eq_cons n
  rw [hds, List.cons_append]
  refine lexes_number hd (fun sign r hr => ?_) negative
  obtain ⟨ht, hdrop⟩ := hr.takeWhile_append (p := Char.isDigit) (by decide) hes
  have hw := wholePart_toDigits n (r := '.' :: (es ++ r)) (by simp)
  rw [hds, List.cons_append] at hw
  simp only [List.cons_append, List.append_assoc, number, hw, ht, hdrop]

theorem lexes_int (i : Int) : Lexes (.literal .int) (toString i).toList := by
  rw [toList_toString_int]
  exact lexes_whole _ _

end SqlScript
