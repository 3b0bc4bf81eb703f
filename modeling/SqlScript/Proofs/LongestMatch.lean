import SqlScript.Proofs.Lexicon

/-!
# The longest match

Cutting takes the longest lexeme that the lexical grammar allows. A text of the lexicon in front is
taken as it is, unless a longer one is (`Lexeme.first_reaches`); what is taken belongs to the
language of its kind (`Lexeme.first_belongs`); and an unknown piece is a single character, or a
quote with the rest of its line (`Lexeme.isLeftover_first`). With the blanks in front of it a token
is then the longest match of the lexicon (`scan_longest_match`).
-/

namespace SqlScript

open Lexeme

/-! ## What is in front is taken, unless more is -/

namespace Lexeme

/-- The lexeme is the text `w` of kind `k`, or it is known and longer. -/
def Reaches (x : Lexeme) (k : Kind) (w : List Char) : Prop :=
  (x.kind = k ∧ x.chars = w) ∨ (x.kind ≠ .unknown ∧ w.length < x.chars.length)

theorem kind_word_ne_unknown (cs : List Char) : (word cs).kind ≠ .unknown := by
  simp only [word, wordKind]
  split <;> exact fun h => by cases h

theorem kind_number_ne_unknown (sign cs : List Char) : (number sign cs).kind ≠ .unknown := by
  obtain ⟨d, hd⟩ := kind_number sign cs
  rw [hd]
  exact fun h => by cases h

theorem word_reaches {w : List Char} (hw : ∀ c ∈ w, c.isAlphanum = true) (r : List Char) :
    (word (w ++ r)).Reaches (wordKind w) w := by
  have ht : (word (w ++ r)).chars = w ++ r.takeWhile Char.isAlphanum :=
    List.takeWhile_append_of_pos hw
  cases he : r.takeWhile Char.isAlphanum with
  | nil =>
    rw [he, List.append_nil] at ht
    exact .inl ⟨congrArg wordKind ht, ht⟩
  | cons d ds =>
    refine .inr ⟨kind_word_ne_unknown _, ?_⟩
    rw [ht, he]
    simp

theorem wholePart_cons_of_ne {d : Char} (hd : d ≠ '0') (cs : List Char) :
    wholePart (d :: cs) =
      ((d :: cs).takeWhile Char.isDigit, (d :: cs).dropWhile Char.isDigit) := by
  unfold wholePart
  split
  · next r he => exact absurd (List.cons.inj he).1 hd
  · rfl

/-- A whole part in front is all of it, or the start of a longer one. -/
theorem exists_wholePart_append {q : List Char} (hq : q ∈ Lexicon.whole) (r : List Char) :
    ∃ e r', wholePart (q ++ r) = (q ++ e, r') := by
  rcases Lexicon.mem_whole.1 hq with rfl | ⟨d, ds, rfl, hd, hdig, hds⟩
  · exact ⟨[], r, rfl⟩
  · have hall : ∀ c ∈ d :: ds, c.isDigit = true := List.forall_mem_cons.2 ⟨hdig, hds⟩
    refine ⟨r.takeWhile Char.isDigit, r.dropWhile Char.isDigit, ?_⟩
    rw [List.cons_append, wholePart_cons_of_ne hd, ← List.cons_append,
      List.takeWhile_append_of_pos hall, List.dropWhile_append_of_pos hall]

/-- A run of characters is the same with more text behind it, if it ends inside the text, or else
what is behind does not go on with it. -/
theorem span_append {p : Char → Bool} {cs b : List Char}
    (h : cs.dropWhile p = [] → ∀ d ∈ b.head?, p d = false) :
    (cs ++ b).takeWhile p = cs.takeWhile p ∧ (cs ++ b).dropWhile p = cs.dropWhile p ++ b := by
  have hall : ∀ c ∈ cs.takeWhile p, p c = true := List.all_eq_true.1 List.all_takeWhile
  have hstop : (cs.dropWhile p ++ b).takeWhile p = [] ∧
      (cs.dropWhile p ++ b).dropWhile p = cs.dropWhile p ++ b := by
    have hhead := List.head?_dropWhile_not p cs
    rcases hd : cs.dropWhile p with _ | ⟨d, r⟩
    · rcases b with _ | ⟨d, b⟩
      · exact ⟨rfl, rfl⟩
      · simp [h hd d rfl]
    · rw [hd] at hhead
      have hpd : p d = false := by simpa using hhead
      simp [hpd]
  have hspan : cs ++ b = cs.takeWhile p ++ (cs.dropWhile p ++ b) := by
    rw [← List.append_assoc, List.takeWhile_append_dropWhile]
  rw [hspan, List.takeWhile_append_of_pos hall, List.dropWhile_append_of_pos hall, hstop.1,
    hstop.2, List.append_nil]
  exact ⟨rfl, rfl⟩

/-- A whole part is the same with more text behind it, if it ends inside the text, or else no digit
is behind. -/
theorem wholePart_append_of_head? {cs b : List Char}
    (h : (wholePart cs).2 = [] → ∀ d ∈ b.head?, d.isDigit = false) :
    wholePart (cs ++ b) = ((wholePart cs).1, (wholePart cs).2 ++ b) := by
  rcases cs with _ | ⟨c, cs⟩
  · rcases b with _ | ⟨d, b⟩
    · rfl
    · have hd : d.isDigit = false := h rfl d rfl
      have hne : d ≠ '0' := by
        rintro rfl
        cases hd
      rw [List.nil_append, wholePart_cons_of_ne hne]
      simp [wholePart, hd]
  by_cases hc : c = '0'
  · subst hc
    rfl
  · rw [wholePart_cons_of_ne hc] at h ⊢
    obtain ⟨ht, hr⟩ := span_append h
    rw [List.cons_append, wholePart_cons_of_ne hc, ← List.cons_append, ht, hr]

theorem wholePart_of_mem_whole {q : List Char} (hq : q ∈ Lexicon.whole) :
    wholePart q = (q, []) := by
  rcases Lexicon.mem_whole.1 hq with rfl | ⟨d, ds, rfl, hd, hdig, hds⟩
  · rfl
  · have hall : ∀ c ∈ d :: ds, c.isDigit = true := List.forall_mem_cons.2 ⟨hdig, hds⟩
    rw [wholePart_cons_of_ne hd, List.takeWhile_eq_self_iff.2 hall,
      List.dropWhile_eq_nil_iff.2 hall]

/-- A whole part ends in front of what is no digit. -/
theorem wholePart_append_of_mem_whole {q r : List Char} (hq : q ∈ Lexicon.whole)
    (hr : ∀ c ∈ r.head?, c.isDigit = false) : wholePart (q ++ r) = (q, r) := by
  rw [wholePart_append_of_head? fun _ => hr, wholePart_of_mem_whole hq]
  rfl

/-- A whole part ends at a point. -/
theorem wholePart_append_point {q : List Char} (hq : q ∈ Lexicon.whole) (r : List Char) :
    wholePart (q ++ '.' :: r) = (q, '.' :: r) :=
  wholePart_append_of_mem_whole hq (by simp)

theorem number_reaches_int {q : List Char} (hq : q ∈ Lexicon.whole) (sign r : List Char) :
    (number sign (q ++ r)).Reaches (.literal .int) (sign ++ q) := by
  obtain ⟨e, r', hw⟩ := exists_wholePart_append hq r
  unfold number
  rw [hw]
  split
  · next whole r₁ he =>
    obtain ⟨rfl, -⟩ := Prod.mk.inj he
    refine .inr ⟨by simp, ?_⟩
    simp only [List.length_append, List.length_cons]
    omega
  · next whole r₁ _ he =>
    obtain ⟨rfl, -⟩ := Prod.mk.inj he
    cases e with
    | nil => exact .inl ⟨rfl, by simp⟩
    | cons d ds => exact .inr ⟨by simp, by simp⟩

theorem number_reaches_real {q ds : List Char} (hq : q ∈ Lexicon.whole)
    (hds : ∀ d ∈ ds, d.isDigit = true) (sign r : List Char) :
    (number sign (q ++ '.' :: (ds ++ r))).Reaches (.literal .real) (sign ++ (q ++ '.' :: ds)) := by
  simp only [number, wholePart_append_point hq, List.takeWhile_append_of_pos hds]
  cases r.takeWhile Char.isDigit with
  | nil => exact .inl ⟨rfl, by simp⟩
  | cons d es => exact .inr ⟨by simp, by simp⟩

/-- A number starts with its sign or with its first digit. -/
theorem exists_first_eq_number {s : List Char} (hs : s ∈ Lexicon.sign) {d : Char}
    (hd : d.isDigit = true) (cs : List Char) :
    ∃ c r, s ++ d :: cs = c :: r ∧ first c r = number s (d :: cs) := by
  rcases Lexicon.mem_sign.1 hs with rfl | ⟨c, hc, rfl⟩
  · exact ⟨d, cs, rfl, first_of_isDigit hd cs⟩
  · refine ⟨c, d :: cs, rfl, ?_⟩
    obtain rfl | rfl : c = '+' ∨ c = '-' := by simpa [isSign] using hc
    · rw [show first '+' (d :: cs) = signed '+' (d :: cs) from rfl, signed, if_pos hd]
    · exact first_minus hd cs

theorem quoted_reaches {body : List Char} (hb : ∀ c ∈ body, isQuotable c = true) (r : List Char) :
    (quoted (body ++ '"' :: r)).Reaches (.literal .text) ('"' :: (body ++ ['"'])) := by
  refine .inl ?_
  rw [quoted, List.takeWhile_append_of_pos hb, List.dropWhile_append_of_pos hb,
    List.takeWhile_cons_of_neg (by decide), List.dropWhile_cons_of_neg (by decide),
    List.append_nil]
  exact ⟨rfl, rfl⟩

theorem first_reaches_of_mem_word {w : List Char} (hw : w ∈ Lexicon.word) {c : Char}
    {r cs : List Char} (h : w ++ r = c :: cs) : (first c cs).Reaches (wordKind w) w := by
  obtain ⟨d, ds, rfl, hd, hds⟩ := Lexicon.mem_word.1 hw
  have hc : d = c := (List.cons.inj h).1
  rw [first_of_isAlpha (hc ▸ hd), ← h]
  exact word_reaches (List.forall_mem_cons.2 ⟨isAlphanum_of_isAlpha hd, hds⟩) r

/-- An angle bracket is an operator, or a longer one with the equality sign behind it. -/
theorem operator_reaches {b : Char} {k : Comparison}
    (hb : (b = '<' ∧ k = .less) ∨ (b = '>' ∧ k = .greater)) (r : List Char) :
    (operator b r).Reaches (.comparison k) [b] := by
  rcases r with _ | ⟨d, r⟩
  · rcases hb with ⟨rfl, rfl⟩ | ⟨rfl, rfl⟩ <;> exact .inl ⟨rfl, rfl⟩
  · by_cases hd : d = '='
    · subst hd
      rcases hb with ⟨rfl, rfl⟩ | ⟨rfl, rfl⟩ <;> exact .inr ⟨by simp [operator], by simp [operator]⟩
    · rcases hb with ⟨rfl, rfl⟩ | ⟨rfl, rfl⟩ <;> exact .inl (by simp [operator, hd])

theorem first_reaches_comparison (k : Comparison) {c : Char} {r cs : List Char}
    (h : k.spelling.toList ++ r = c :: cs) :
    (first c cs).Reaches (.comparison k) k.spelling.toList := by
  cases k with
  | less =>
    obtain ⟨rfl, rfl⟩ : '<' = c ∧ r = cs := List.cons.inj h
    exact operator_reaches (.inl ⟨rfl, rfl⟩) r
  | greater =>
    obtain ⟨rfl, rfl⟩ : '>' = c ∧ r = cs := List.cons.inj h
    exact operator_reaches (.inr ⟨rfl, rfl⟩) r
  | _ =>
    obtain ⟨rfl, rfl⟩ := List.cons.inj h
    exact .inl ⟨rfl, rfl⟩

/-- **A text of the lexicon in front is taken**, unless a longer one is. -/
theorem first_reaches {k : Kind} {w : List Char} (hw : w ∈ k.language) {c : Char}
    {r cs : List Char} (h : w ++ r = c :: cs) : (first c cs).Reaches k w := by
  cases k with
  | keyword k =>
    obtain rfl : w = k.spelling.toList := hw
    have hk : wordKind k.spelling.toList = .keyword k := by
      rw [wordKind, String.ofList_toList, Keyword.ofSpelling?_spelling]
    rw [← hk]
    exact first_reaches_of_mem_word (Keyword.spelling_mem_word k) h
  | mark m =>
    obtain rfl : w = [m.char] := hw
    obtain ⟨rfl, rfl⟩ := List.cons.inj h
    rw [first_char]
    exact .inl ⟨rfl, rfl⟩
  | comparison k =>
    obtain rfl : w = k.spelling.toList := hw
    exact first_reaches_comparison k h
  | identifier =>
    obtain ⟨hw, hk⟩ := hw
    rw [← wordKind_eq_identifier_iff.2 fun k he => hk k (by rw [he, String.toList_ofList])]
    exact first_reaches_of_mem_word hw h
  | literal t =>
    cases t with
    | int =>
      obtain ⟨s, hs, q, hq, rfl⟩ := Language.mem_mul.1 hw
      obtain ⟨d, ds, rfl, hd, -⟩ := Lexicon.mem_digits.1 (Lexicon.mem_digits_of_mem_whole hq)
      obtain ⟨c', r', he, hf⟩ := exists_first_eq_number hs hd (ds ++ r)
      rw [List.append_assoc, List.cons_append, he] at h
      obtain ⟨rfl, rfl⟩ := List.cons.inj h
      rw [hf]
      exact number_reaches_int hq s r
    | real =>
      obtain ⟨s, hs, _, hq', rfl⟩ := Language.mem_mul.1 hw
      obtain ⟨q, hq, _, hp, rfl⟩ := Language.mem_mul.1 hq'
      obtain ⟨es, rfl, hes⟩ := Lexicon.mem_decimals.1 hp
      obtain ⟨d, ds, rfl, hd, -⟩ := Lexicon.mem_digits.1 (Lexicon.mem_digits_of_mem_whole hq)
      obtain ⟨c', r', he, hf⟩ := exists_first_eq_number hs hd (ds ++ '.' :: (es ++ r))
      have h' : s ++ d :: (ds ++ '.' :: (es ++ r)) = c :: cs := by simpa using h
      rw [he] at h'
      obtain ⟨rfl, rfl⟩ := List.cons.inj h'
      rw [hf]
      exact number_reaches_real hq hes s r
    | text =>
      obtain ⟨body, rfl, hb⟩ := Lexicon.mem_text.1 hw
      have h' : '"' :: (body ++ '"' :: r) = c :: cs := by simpa using h
      obtain ⟨rfl, rfl⟩ := List.cons.inj h'
      exact quoted_reaches hb r
  | endOfInput => exact absurd hw (Language.notMem_zero w)
  | unknown => exact absurd hw (Language.notMem_zero w)

/-! ## What is taken -/

/-- The lexeme is a text of its kind, unless it is unknown. -/
def Belongs (x : Lexeme) : Prop := x.kind ≠ .unknown → x.chars ∈ x.kind.language

theorem word_belongs {c : Char} (hc : c.isAlpha = true) (cs : List Char) :
    (word (c :: cs)).Belongs := by
  intro _
  have hw : (word (c :: cs)).chars = c :: cs.takeWhile Char.isAlphanum :=
    List.takeWhile_cons_of_pos (isAlphanum_of_isAlpha hc)
  have hk : (word (c :: cs)).kind = wordKind (word (c :: cs)).chars := rfl
  have hmem : (word (c :: cs)).chars ∈ Lexicon.word :=
    Lexicon.mem_word.2 ⟨c, _, hw, hc, List.all_eq_true.1 List.all_takeWhile⟩
  rw [hk]
  generalize (word (c :: cs)).chars = w at hmem ⊢
  cases hs : Keyword.ofSpelling? (String.ofList w) with
  | some k =>
    rw [wordKind, hs]
    change w = k.spelling.toList
    rw [Keyword.spelling_of_ofSpelling? hs, String.toList_ofList]
  | none =>
    rw [wordKind, hs]
    refine ⟨hmem, fun k he => ?_⟩
    rw [he, String.ofList_toList, Keyword.ofSpelling?_spelling] at hs
    cases hs

theorem wholePart_mem_whole {d : Char} (hd : d.isDigit = true) (cs : List Char) :
    (wholePart (d :: cs)).1 ∈ Lexicon.whole := by
  by_cases h0 : d = '0'
  · subst h0
    exact Lexicon.mem_whole.2 (.inl rfl)
  · rw [wholePart_cons_of_ne h0, List.takeWhile_cons_of_pos hd]
    exact Lexicon.mem_whole.2
      (.inr ⟨d, _, rfl, h0, hd, List.all_eq_true.1 List.all_takeWhile⟩)

theorem number_belongs {s : List Char} (hs : s ∈ Lexicon.sign) {d : Char} (hd : d.isDigit = true)
    (cs : List Char) : (number s (d :: cs)).Belongs := by
  intro _
  have hw := wholePart_mem_whole hd cs
  unfold number
  split
  · next whole r he =>
    rw [he] at hw
    rw [List.append_assoc]
    refine Language.append_mem_mul hs (Language.append_mem_mul hw ?_)
    exact Lexicon.mem_decimals.2 ⟨_, rfl, List.all_eq_true.1 List.all_takeWhile⟩
  · next whole r _ he =>
    rw [he] at hw
    exact Language.append_mem_mul hs hw

theorem signed_belongs {c : Char} (hc : isSign c = true) (cs : List Char) :
    (signed c cs).Belongs := by
  unfold signed
  split
  · exact fun h => absurd rfl h
  · split
    · next hd => exact number_belongs (Lexicon.mem_sign.2 (.inr ⟨c, hc, rfl⟩)) hd _
    · exact fun h => absurd rfl h

theorem quoted_belongs (cs : List Char) : (quoted cs).Belongs := by
  unfold quoted
  dsimp only
  split
  · exact fun _ => Lexicon.mem_text.2 ⟨_, rfl, List.all_eq_true.1 List.all_takeWhile⟩
  · exact fun h => absurd rfl h

theorem operator_belongs (c : Char) (cs : List Char) : (operator c cs).Belongs := by
  unfold operator
  split <;> intro h
  any_goals exact rfl
  exact absurd rfl h

/-- **What is taken is a text of its kind**, unless it is unknown. -/
theorem first_belongs (c : Char) (cs : List Char) : (first c cs).Belongs := by
  unfold first
  split
  · next m hm =>
    intro _
    change [c] = [m.char]
    rw [Mark.char_of_ofChar? hm]
  · split
    · next h => exact word_belongs h cs
    split
    · next h => exact number_belongs (Lexicon.mem_sign.2 (.inl rfl)) h cs
    split
    · next h => exact signed_belongs h cs
    split
    · exact quoted_belongs cs
    · exact operator_belongs c cs

/-! ## Unknown pieces -/

/-- If the lexeme at the front of `c :: cs` is unknown, it is a quote with the rest of its line, or
else a single character. -/
def IsLeftover (c : Char) (cs : List Char) (x : Lexeme) : Prop :=
  x.kind = .unknown → x.chars = if c = '"' then (c :: cs).takeWhile (· ≠ '\n') else [c]

theorem isLeftover_of_known {x : Lexeme} (h : x.kind ≠ .unknown) (c : Char) (cs : List Char) :
    IsLeftover c cs x :=
  fun h' => absurd h' h

theorem isLeftover_single {c : Char} (hc : c ≠ '"') (cs r : List Char) :
    IsLeftover c cs ⟨.unknown, [c], r⟩ :=
  fun _ => (if_neg hc).symm

theorem isLeftover_signed {c : Char} (hc : isSign c = true) (cs : List Char) :
    IsLeftover c cs (signed c cs) := by
  have hq : c ≠ '"' := by
    rintro rfl
    cases hc
  unfold signed
  split
  · exact isLeftover_single hq _ _
  · split
    · exact isLeftover_of_known (kind_number_ne_unknown _ _) _ _
    · exact isLeftover_single hq _ _

theorem isLeftover_quoted (cs : List Char) : IsLeftover '"' cs (quoted cs) := by
  have hspan := List.takeWhile_append_dropWhile (p := isQuotable) (l := cs)
  have hhead := List.head?_dropWhile_not isQuotable cs
  have hbody : ∀ c ∈ cs.takeWhile isQuotable, decide (c ≠ '\n') = true := fun c hc => by
    have := List.all_eq_true.1 List.all_takeWhile c hc
    simp only [isQuotable, Bool.and_eq_true] at this
    exact this.2
  unfold quoted
  dsimp only
  split
  · exact isLeftover_of_known (by simp) _ _
  · next hr =>
    intro _
    rw [if_pos rfl, List.takeWhile_cons_of_pos (by decide)]
    -- what stops the text is no quote, so it is the end of the line
    have hstop : (cs.dropWhile isQuotable).takeWhile (· ≠ '\n') = [] := by
      rcases hd : cs.dropWhile isQuotable with _ | ⟨d, r⟩
      · rfl
      · rw [hd] at hhead
        have hdq : d ≠ '"' := fun he => hr r (by rw [hd, he])
        have hdn : d = '\n' := by simpa [isQuotable, hdq] using hhead
        simp [hdn]
    conv_rhs => rw [← hspan, List.takeWhile_append_of_pos hbody, hstop, List.append_nil]

theorem isLeftover_operator {c : Char} (hc : c ≠ '"') (cs : List Char) :
    IsLeftover c cs (operator c cs) := by
  unfold operator
  split
  case h_7 => exact isLeftover_single hc _ _
  all_goals exact isLeftover_of_known (by simp) _ _

/-- **An unknown piece** is a quote with the rest of its line, or else a single character. -/
theorem isLeftover_first (c : Char) (cs : List Char) : IsLeftover c cs (first c cs) := by
  unfold first
  split
  · exact isLeftover_of_known (by simp) _ _
  · split
    · exact isLeftover_of_known (kind_word_ne_unknown _) _ _
    split
    · exact isLeftover_of_known (kind_number_ne_unknown _ _) _ _
    split
    · next h => exact isLeftover_signed h cs
    split
    · next h =>
      subst h
      exact isLeftover_quoted cs
    · next h => exact isLeftover_operator h cs

/-- No longer text of the lexicon stands in front than the one that is taken. -/
theorem length_le_length_chars_first {p : List Char} (hp : p ∈ lexicon) {c : Char} {cs : List Char}
    (h : p <+: c :: cs) :
    (first c cs).kind ≠ .unknown ∧ p.length ≤ (first c cs).chars.length := by
  obtain ⟨k, hk⟩ := mem_lexicon.1 hp
  obtain ⟨r, hr⟩ := h
  rcases first_reaches hk hr with ⟨rfl, rfl⟩ | ⟨hne, hlt⟩
  · refine ⟨fun hu => ?_, Nat.le_refl _⟩
    rw [hu] at hk
    exact Language.notMem_zero _ hk
  · exact ⟨hne, hlt.le⟩

/-- The empty text is no token: it would be taken in front of a piece that is unknown. -/
theorem nil_notMem_language (k : Kind) : [] ∉ k.language := by
  intro h
  rcases first_reaches h (r := ['!']) rfl with ⟨-, hchars⟩ | ⟨hkind, -⟩
  · cases hchars
  · exact hkind rfl

/-- No text belongs to two kinds. -/
theorem kind_eq_of_mem_language {k k' : Kind} {w : List Char} (h : w ∈ k.language)
    (h' : w ∈ k'.language) : k = k' := by
  -- cut off from nothing but itself, the text can only be taken as a whole
  have hone : ∀ {k : Kind} {c cs}, c :: cs ∈ k.language → (first c cs).kind = k := by
    intro k c cs hk
    rcases first_reaches hk (List.append_nil _) with ⟨hkind, -⟩ | ⟨-, hlt⟩
    · exact hkind
    · have hle := congrArg List.length (first_append c cs)
      rw [List.length_append] at hle
      omega
  cases w with
  | nil => exact absurd h (nil_notMem_language k)
  | cons c cs => rw [← hone h, ← hone h']

end Lexeme

/-! ## Longest match -/

/-- **A token is the longest match of the lexicon.** Let `c :: r` be what a text goes on with behind
the blanks at its front. If some text of the lexicon stands there, the next token is the longest
one, and its kind is the only one that the text belongs to. If none does, the token is unknown; it
is the rest of the line if that starts with a quote, and the character `c` otherwise. No other
token is unknown. -/
theorem scan_longest_match (l : Location) {cs : List Char} {c : Char} {r : List Char}
    (h : cs.dropWhile isBlank = c :: r) :
    ∃ k w rest, c :: r = w ++ rest ∧
      scan l cs = ⟨⟨k, String.ofList w, l.after (cs.takeWhile isBlank)⟩,
        (l.after (cs.takeWhile isBlank)).after w, rest⟩ ∧
      ((∃ p ∈ lexicon, p <+: c :: r) →
        w ∈ k.language ∧ (∀ k' : Kind, w ∈ k'.language → k' = k) ∧
          ∀ p ∈ lexicon, p <+: c :: r → p.length ≤ w.length) ∧
      ((¬ ∃ p ∈ lexicon, p <+: c :: r) →
        k = .unknown ∧ w = if c = '"' then (c :: r).takeWhile (· ≠ '\n') else [c]) ∧
      (k = .unknown → ¬ ∃ p ∈ lexicon, p <+: c :: r) := by
  have hmem := first_belongs c r
  refine ⟨(first c r).kind, (first c r).chars, (first c r).rest, (first_append c r).symm, ?_, ?_,
    ?_, ?_⟩
  · simp only [scan, h]
  · rintro ⟨p, hp, hpre⟩
    have hk := (length_le_length_chars_first hp hpre).1
    exact ⟨hmem hk, fun k' hk' => kind_eq_of_mem_language hk' (hmem hk),
      fun q hq hpre => (length_le_length_chars_first hq hpre).2⟩
  · intro hnone
    have hk : (first c r).kind = .unknown := by
      by_contra hne
      exact hnone ⟨_, mem_lexicon.2 ⟨_, hmem hne⟩, ⟨_, first_append c r⟩⟩
    exact ⟨hk, isLeftover_first c r hk⟩
  · rintro hk ⟨p, hp, hpre⟩
    exact (length_le_length_chars_first hp hpre).1 hk

/-- Behind a tab, `-01` goes on with a blank-free text, and its longest match is `-0`. -/
theorem scan_longest_match_minus_zero :
    ['\t', '-', '0', '1'].dropWhile isBlank = ['-', '0', '1'] ∧
      ∀ p ∈ lexicon, p <+: ['-', '0', '1'] → p.length ≤ 2 := by
  refine ⟨rfl, fun p hp hpre => ?_⟩
  obtain ⟨k, w, rest, -, hs, hmatch, -⟩ :=
    scan_longest_match .start
      (show ['\t', '-', '0', '1'].dropWhile isBlank = '-' :: ['0', '1'] from rfl)
  have hw : "-0" = String.ofList w := congrArg (fun s => s.token.text) hs
  have hlen : w.length = 2 := by
    rw [← String.length_ofList, ← hw]
    rfl
  exact hlen ▸ (hmatch ⟨p, hp, hpre⟩).2.2 p hp hpre

end SqlScript
