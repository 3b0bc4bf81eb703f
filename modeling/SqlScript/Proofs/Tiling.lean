import SqlScript.Proofs.LongestMatch

/-!
# Tokens tile their text

The tokens of a text and the blanks between them are its consecutive pieces, and every token says
where its piece starts. `Tiles front cs ps last` follows the scans through the text `cs`, which
stands behind the characters `front`: it lists the tokens, each with the blanks in front of it, and
the blanks behind the last one. From that relation follow the pieces (`Tiles.isPieceOf`) and their
order, and with the position behind a text (`Location.isIn_after_start`) also lines and columns
(`exists_drain_tiles`).
-/

namespace SqlScript

open Lexeme

/-! ## The position behind a text -/

namespace Location

theorem offset_after (l : Location) (cs : List Char) :
    (l.after cs).offset = l.offset + (String.ofList cs).utf8ByteSize := by
  induction cs generalizing l with
  | nil => rfl
  | cons c cs ih =>
    have hc : (l.next c).offset = l.offset + c.utf8Size := by
      unfold next
      split <;> rfl
    rw [after_cons, ih, hc, String.ofList_cons, String.utf8ByteSize_append,
      String.utf8ByteSize_singleton, Nat.add_assoc]

theorem line_after (l : Location) (cs : List Char) :
    (l.after cs).line = l.line + cs.count '\n' := by
  induction cs generalizing l with
  | nil => rfl
  | cons c cs ih =>
    rw [after_cons, ih, next]
    by_cases hc : c = '\n'
    · simp [hc]
      omega
    · simp [hc]

theorem column_after_start (cs : List Char) :
    (start.after cs).column = 1 + (cs.rtakeWhile (· ≠ '\n')).length := by
  induction cs using List.reverseRecOn with
  | nil => rfl
  | append_singleton cs c ih =>
    rw [after_append, after_cons, after_nil, next]
    by_cases hc : c = '\n'
    · simp [hc]
    · simp [hc, ih]
      omega

theorem offset_after_start (s : String) : (start.after s.toList).offset = s.utf8ByteSize := by
  rw [offset_after, String.ofList_toList]
  exact Nat.zero_add _

/-- The position is in the text: behind so many bytes, in the line behind so many line feeds, and
in the column behind so many characters of that line. -/
def IsIn (l : Location) (text : String) : Prop :=
  ∃ before after, text = before ++ after ∧ l.offset = before.utf8ByteSize ∧
    l.line = 1 + before.toList.count '\n' ∧
    l.column = 1 + (before.toList.rtakeWhile (· ≠ '\n')).length

theorem isIn_after_start (before after : String) :
    (start.after before.toList).IsIn (before ++ after) := by
  refine ⟨before, after, rfl, offset_after_start before, ?_, column_after_start _⟩
  rw [line_after]
  rfl

end Location

/-! ## Tokens as pieces of a text -/

/-- The bytes of the token are those of the text at its offset, and they start and end between two
characters. -/
structure Token.IsSliceOf (t : Token) (text : String) : Prop where
  isValid_start : String.Pos.Raw.IsValid text ⟨t.location.offset⟩
  isValid_stop : String.Pos.Raw.IsValid text ⟨t.location.offset + t.text.utf8ByteSize⟩
  bytes_eq : text.toByteArray.extract t.location.offset
    (t.location.offset + t.text.utf8ByteSize) = t.text.toByteArray

theorem Token.isSliceOf_of_append {t : Token} {before after : String}
    (hl : t.location.offset = before.utf8ByteSize) : t.IsSliceOf (before ++ (t.text ++ after)) where
  isValid_start := by
    rw [hl]
    exact String.Pos.Raw.isValid_iff_exists_append.2 ⟨before, _, rfl, rfl⟩
  isValid_stop := by
    refine String.Pos.Raw.isValid_iff_exists_append.2
      ⟨before ++ t.text, after, String.append_assoc.symm, ?_⟩
    rw [hl, ← String.utf8ByteSize_append]
    rfl
  bytes_eq := by
    have hslice := ByteArray.extract_append_size_add' (a := before.toByteArray)
      (b := (t.text ++ after).toByteArray) (i := 0) (j := t.text.utf8ByteSize) hl
    rw [Nat.add_zero, String.toByteArray_append (s := t.text),
      ByteArray.extract_append_eq_left String.size_toByteArray.symm] at hslice
    rwa [String.toByteArray_append, String.toByteArray_append]

/-- The token is a piece of one line of the text, starts with no blank, and says where it is. -/
structure Token.IsPieceOf (t : Token) (text : String) : Prop where
  kind_ne : t.kind ≠ .endOfInput
  exists_cons : ∃ c w, t.text.toList = c :: w ∧ isBlank c = false
  newline_notMem : '\n' ∉ t.text.toList
  exists_append : ∃ before after, text = before ++ (t.text ++ after) ∧
    t.location = Location.start.after before.toList

namespace Token.IsPieceOf

variable {t : Token} {text : String}

theorem size_pos (h : t.IsPieceOf text) : 0 < t.text.utf8ByteSize := by
  obtain ⟨c, w, hcw, -⟩ := h.exists_cons
  rw [← String.ofList_toList (s := t.text), hcw, String.ofList_cons, String.utf8ByteSize_append,
    String.utf8ByteSize_singleton]
  exact Nat.add_pos_left c.utf8Size_pos _

theorem text_ne (h : t.IsPieceOf text) : t.text ≠ "" := by
  intro he
  have hpos := h.size_pos
  rw [he] at hpos
  exact absurd hpos (Nat.lt_irrefl 0)

theorem isBlank_head? (h : t.IsPieceOf text) : ∀ c ∈ t.text.toList.head?, isBlank c = false := by
  obtain ⟨c, w, hcw, hc⟩ := h.exists_cons
  simp [hcw, hc]

theorem isSliceOf (h : t.IsPieceOf text) : t.IsSliceOf text := by
  obtain ⟨before, after, rfl, hl⟩ := h.exists_append
  exact Token.isSliceOf_of_append (hl ▸ Location.offset_after_start before)

theorem isIn (h : t.IsPieceOf text) : t.location.IsIn text := by
  obtain ⟨before, after, rfl, hl⟩ := h.exists_append
  rw [hl]
  exact Location.isIn_after_start _ _

theorem stop_le (h : t.IsPieceOf text) :
    t.location.offset + t.text.utf8ByteSize ≤ text.utf8ByteSize := by
  obtain ⟨before, after, rfl, hl⟩ := h.exists_append
  rw [hl, Location.offset_after_start, String.utf8ByteSize_append, String.utf8ByteSize_append]
  omega

end Token.IsPieceOf

/-! ## The scans through a text -/

/-- `Tiles front cs ps last`: behind the characters `front`, the text `cs` consists of the tokens
of `ps`, each with the blanks in front of it, and the blanks `last` behind them. -/
inductive Tiles : List Char → List Char → List (List Char × Token) → List Char → Prop
  | nil {front last : List Char} (hb : ∀ c ∈ last, isBlank c = true) : Tiles front last [] last
  | cons {front gap w rest last : List Char} {k : Kind} {ps : List (List Char × Token)}
      (hb : ∀ c ∈ gap, isBlank c = true) (hk : k ≠ .endOfInput)
      (hw : ∃ c cs, w = c :: cs ∧ isBlank c = false) (hn : '\n' ∉ w)
      (h : Tiles (front ++ (gap ++ w)) rest ps last) :
      Tiles front (gap ++ (w ++ rest))
        ((gap, ⟨k, String.ofList w, Location.start.after (front ++ gap)⟩) :: ps) last

theorem newline_notMem_of_isAlphanum {w : List Char} (hw : ∀ c ∈ w, c.isAlphanum = true) :
    '\n' ∉ w :=
  fun h => absurd (hw _ h) (by decide)

theorem newline_notMem_of_mem_sign {s : List Char} (hs : s ∈ Lexicon.sign) : '\n' ∉ s := by
  rcases Lexicon.mem_sign.1 hs with rfl | ⟨c, hc, rfl⟩
  · exact List.not_mem_nil
  · intro h
    rw [List.mem_singleton] at h
    subst h
    cases hc

theorem newline_notMem_of_mem_whole {q : List Char} (hq : q ∈ Lexicon.whole) : '\n' ∉ q :=
  newline_notMem_of_isAlphanum fun c hc =>
    isAlphanum_of_isDigit (Lexicon.isDigit_of_mem_digits (Lexicon.mem_digits_of_mem_whole hq) c hc)

/-- No token of the lexicon goes on in the next line. -/
theorem newline_notMem_of_mem_language {k : Kind} {w : List Char} (h : w ∈ k.language) :
    '\n' ∉ w := by
  have hword : ∀ w ∈ Lexicon.word, '\n' ∉ w := by
    intro w hw
    obtain ⟨c, cs, rfl, hc, hcs⟩ := Lexicon.mem_word.1 hw
    exact newline_notMem_of_isAlphanum (List.forall_mem_cons.2 ⟨isAlphanum_of_isAlpha hc, hcs⟩)
  cases k with
  | keyword k =>
    obtain rfl : w = k.spelling.toList := h
    exact hword _ k.spelling_mem_word
  | mark m =>
    obtain rfl : w = [m.char] := h
    cases m <;> decide
  | comparison k =>
    obtain rfl : w = k.spelling.toList := h
    cases k <;> decide
  | identifier => exact hword w h.1
  | literal t =>
    cases t with
    | int =>
      obtain ⟨s, hs, q, hq, rfl⟩ := Language.mem_mul.1 h
      rw [List.mem_append, not_or]
      exact ⟨newline_notMem_of_mem_sign hs, newline_notMem_of_mem_whole hq⟩
    | real =>
      obtain ⟨s, hs, _, hq', rfl⟩ := Language.mem_mul.1 h
      obtain ⟨q, hq, _, hp, rfl⟩ := Language.mem_mul.1 hq'
      obtain ⟨ds, rfl, hds⟩ := Lexicon.mem_decimals.1 hp
      have hds' := newline_notMem_of_isAlphanum fun c hc => isAlphanum_of_isDigit (hds c hc)
      simp [newline_notMem_of_mem_sign hs, newline_notMem_of_mem_whole hq, hds']
    | text =>
      obtain ⟨body, rfl, hb⟩ := Lexicon.mem_text.1 h
      have hb' : '\n' ∉ body := fun hc => absurd (hb _ hc) (by decide)
      simp [hb']
  | endOfInput => exact absurd h (Language.notMem_zero w)
  | unknown => exact absurd h (Language.notMem_zero w)

theorem newline_notMem_chars_first {c : Char} (hc : isBlank c = false) (cs : List Char) :
    '\n' ∉ (first c cs).chars := by
  by_cases hk : (first c cs).kind = .unknown
  · rw [isLeftover_first c cs hk]
    split
    · exact fun h => by simpa using List.mem_takeWhile_imp h
    · rw [List.mem_singleton]
      rintro rfl
      cases hc
  · exact newline_notMem_of_mem_language (first_belongs c cs hk)

theorem exists_chars_first_eq_cons (c : Char) (cs : List Char) :
    ∃ w, (first c cs).chars = c :: w := by
  have hcut := first_append c cs
  obtain ⟨d, w, hw⟩ := List.exists_cons_of_ne_nil (first_chars_ne_nil c cs)
  rw [hw] at hcut ⊢
  obtain rfl : d = c := (List.cons.inj hcut).1
  exact ⟨w, rfl⟩

/-- **The scans through a text tile it**, and the end of input is where the text ends. -/
theorem exists_tiles_tokens (front cs : List Char) : ∃ ps last, Tiles front cs ps last ∧
    tokens (Location.start.after front) cs =
      ps.map Prod.snd ++ [.endOfInput (Location.start.after (front ++ cs))] := by
  induction hn : cs.length using Nat.strongRecOn generalizing front cs with
  | ind n ih =>
    have hspan := List.takeWhile_append_dropWhile (p := isBlank) (l := cs)
    have hblank : ∀ c ∈ cs.takeWhile isBlank, isBlank c = true :=
      List.all_eq_true.1 List.all_takeWhile
    cases hd : cs.dropWhile isBlank with
    | nil =>
      rw [hd, List.append_nil] at hspan
      refine ⟨[], cs, .nil (hspan ▸ hblank), ?_⟩
      rw [tokens_of_dropWhile_nil hd, hspan, Location.after_append]
      rfl
    | cons c r =>
      have hc : isBlank c = false := by
        have := List.head?_dropWhile_not isBlank cs
        rw [hd] at this
        simpa using this
      have hlt := hn ▸ length_rest_first_lt_of_dropWhile hd
      rw [hd, ← first_append c r] at hspan
      obtain ⟨ps, last, htiles, htokens⟩ :=
        ih _ hlt (front ++ (cs.takeWhile isBlank ++ (first c r).chars)) (first c r).rest rfl
      obtain ⟨w, hw⟩ := exists_chars_first_eq_cons c r
      have hcons := Tiles.cons hblank (kind_first_ne_endOfInput c r) ⟨c, w, hw, hc⟩
        (newline_notMem_chars_first hc r) htiles
      rw [hspan] at hcons
      refine ⟨_, last, hcons, ?_⟩
      have hend : front ++ (cs.takeWhile isBlank ++ (first c r).chars) ++ (first c r).rest =
          front ++ cs := by
        rw [List.append_assoc, List.append_assoc, hspan]
      rw [hend] at htokens
      rw [tokens_of_dropWhile_cons hd, ← Location.after_append, ← Location.after_append,
        List.append_assoc, htokens]
      rfl

namespace Tiles

variable {front cs last : List Char} {ps : List (List Char × Token)}

theorem append_eq (h : Tiles front cs ps last) :
    cs = (ps.flatMap fun p => p.1 ++ p.2.text.toList) ++ last := by
  induction h with
  | nil => rfl
  | cons hb hk hw hn h ih =>
    simp only [List.flatMap_cons, String.toList_ofList, List.append_assoc]
    rw [← ih]

theorem isBlank_of_mem (h : Tiles front cs ps last) :
    (∀ p ∈ ps, ∀ c ∈ p.1, isBlank c = true) ∧ ∀ c ∈ last, isBlank c = true := by
  induction h with
  | nil hb => exact ⟨by simp, hb⟩
  | cons hb hk hw hn h ih => exact ⟨List.forall_mem_cons.2 ⟨hb, ih.1⟩, ih.2⟩

theorem isPieceOf (h : Tiles front cs ps last) :
    ∀ t ∈ ps.map Prod.snd, t.IsPieceOf (String.ofList (front ++ cs)) := by
  induction h with
  | nil => simp
  | @cons front gap w rest last k ps hb hk hw hn h ih =>
    rw [List.map_cons, List.forall_mem_cons]
    refine ⟨⟨hk, ?_, ?_, String.ofList (front ++ gap), String.ofList rest, ?_, ?_⟩,
      fun t ht => ?_⟩
    · simpa only [String.toList_ofList] using hw
    · simpa only [String.toList_ofList] using hn
    · simp only [← String.ofList_append, List.append_assoc]
    · rw [String.toList_ofList]
    · simpa only [List.append_assoc] using ih t ht

/-- Each token ends where the next one starts, or before. -/
theorem pairwise_offset (h : Tiles front cs ps last) :
    (∀ p ∈ ps, (Location.start.after front).offset ≤ p.2.location.offset) ∧
      (ps.map Prod.snd).Pairwise fun t u =>
        t.location.offset + t.text.utf8ByteSize ≤ u.location.offset := by
  induction h with
  | nil => simp
  | @cons front gap w rest last k ps hb hk hw hn h ih =>
    have hgap := Location.offset_after (Location.start.after front) gap
    have hpiece := Location.offset_after (Location.start.after (front ++ gap)) w
    rw [← Location.after_append] at hgap hpiece
    rw [← List.append_assoc] at ih
    refine ⟨List.forall_mem_cons.2 ⟨?_, fun p hp => ?_⟩, ?_⟩
    · exact hgap ▸ Nat.le_add_right _ _
    · have := ih.1 p hp
      omega
    · rw [List.map_cons, List.pairwise_cons]
      refine ⟨fun u hu => ?_, ih.2⟩
      obtain ⟨p, hp, rfl⟩ := List.mem_map.1 hu
      exact hpiece ▸ ih.1 p hp

end Tiles

/-! ## All tokens of a text -/

/-- **The tokens tile the text.** Draining a scanner at the start of a text gives the tokens of
`ps` and one end of input. The end of input stands behind the last byte. Each of the others is a
piece of the text: it is not empty, has the bytes that stand at its offset, starts and ends between
two characters, does not start with a blank and holds no line feed. They follow one another without
overlap, and they and the blanks between them make up the whole text. Every line is counted by the
line feeds in front of a token, and every column by the characters of the line in front of it. -/
theorem exists_drain_tiles (text : String) :
    ∃ (ps : List (List Char × Token)) (last : List Char) (e : Token),
      (Scanner.ofString text).drain.1 = ps.map Prod.snd ++ [e] ∧
      (e.kind = .endOfInput ∧ e.text = "<EOF>" ∧ e.location.offset = text.utf8ByteSize) ∧
      (∀ t ∈ ps.map Prod.snd, t.kind ≠ .endOfInput ∧ t.text ≠ "" ∧ t.IsSliceOf text ∧
        '\n' ∉ t.text.toList ∧
        ∀ c ∈ t.text.toList.head?, c ∉ [' ', '\t', '\n', '\x0c', '\r']) ∧
      ((ps.map Prod.snd ++ [e]).Pairwise fun t u => t.location.offset < u.location.offset ∧
        t.location.offset + t.text.utf8ByteSize ≤ u.location.offset) ∧
      text.toList = (ps.flatMap fun p => p.1 ++ p.2.text.toList) ++ last ∧
      (∀ gap ∈ last :: ps.map Prod.fst, ∀ c ∈ gap, c ∈ [' ', '\t', '\n', '\x0c', '\r']) ∧
      ∀ t ∈ ps.map Prod.snd ++ [e], t.location.IsIn text := by
  have hblanks : ∀ c, isBlank c = true ↔ c ∈ [' ', '\t', '\n', '\x0c', '\r'] := fun c => by
    simp [isBlank, or_assoc]
  obtain ⟨ps, last, h, htokens⟩ := exists_tiles_tokens [] text.toList
  have hdrain : (Scanner.ofString text).drain.1 = _ :=
    (Scanner.remaining_of_pending_none rfl).trans htokens
  have hend := Location.offset_after_start text
  have hpiece : ∀ t ∈ ps.map Prod.snd, t.IsPieceOf text := by
    simpa only [List.nil_append, String.ofList_toList] using h.isPieceOf
  simp only [← hblanks]
  refine ⟨ps, last, _, hdrain, ⟨rfl, rfl, hend⟩, fun t ht => ?_, ?_, h.append_eq, ?_, ?_⟩
  · have ht := hpiece t ht
    refine ⟨ht.kind_ne, ht.text_ne, ht.isSliceOf, ht.newline_notMem, fun c hc => ?_⟩
    exact Bool.not_eq_true _ ▸ ht.isBlank_head? c hc
  · refine List.pairwise_append.2 ⟨?_, List.pairwise_singleton _ _, fun t ht u hu => ?_⟩
    · refine h.pairwise_offset.2.imp_of_mem fun ht _ hle => ⟨?_, hle⟩
      exact Nat.lt_of_lt_of_le (Nat.lt_add_of_pos_right (hpiece _ ht).size_pos) hle
    · obtain rfl := List.mem_singleton.1 hu
      have hle := hend ▸ (hpiece t ht).stop_le
      exact ⟨Nat.lt_of_lt_of_le (Nat.lt_add_of_pos_right (hpiece t ht).size_pos) hle, hle⟩
  · exact List.forall_mem_cons.2 ⟨h.isBlank_of_mem.2, List.forall_mem_map.2 h.isBlank_of_mem.1⟩
  · intro t ht
    rcases List.mem_append.1 ht with ht | ht
    · exact (hpiece t ht).isIn
    · obtain rfl := List.mem_singleton.1 ht
      have hin := Location.isIn_after_start text ""
      rwa [String.append_empty] at hin

end SqlScript
