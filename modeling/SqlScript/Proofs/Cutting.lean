import Mathlib
import SqlScript.Proofs.Segments
import SqlScript.Proofs.Tiling

/-!
# Cutting a text between two tokens

A lexeme is settled by its characters and the one behind them: it stays if the text is cut behind it
(`Lexeme.first_of_append`), and if more text is added, unless it is at the end of the text and goes
on there (`Lexeme.stays_first`). `Cut a b` says that no lexeme of `a` changes in front of `b`; then
the tokens of `a ++ b` are those of `a` and behind them those of `b` (`Cut.tokens_append`), which
stand where `Location.behind` says.

A text can be cut exactly where no token stands on both sides (`drain_append_iff`), and so between
any two of its lines.
-/

namespace SqlScript

/-! ## Lexemes and what is behind them -/

namespace Lexeme

/-- The same lexeme with more text behind it. -/
def followedBy (x : Lexeme) (b : List Char) : Lexeme := { x with rest := x.rest ++ b }

/-- A lexeme in front of the cut was possible before. -/
theorem length_le_of_isPrefix {c : Char} {cs ds : List Char} (hpre : c :: ds <+: c :: cs)
    (h : (first c ds).kind ≠ .unknown) :
    (first c cs).kind ≠ .unknown ∧ (first c ds).chars.length ≤ (first c cs).chars.length :=
  length_le_length_chars_first (mem_lexicon.2 ⟨_, first_belongs c ds h⟩)
    (List.IsPrefix.trans ⟨_, first_append c ds⟩ hpre)

/-- **A lexeme stays if the text is cut behind it.** -/
theorem first_of_append {c : Char} {cs ds r b : List Char} (hrest : (first c cs).rest = r ++ b)
    (hds : (first c cs).chars ++ r = c :: ds) :
    first c ds = ⟨(first c cs).kind, (first c cs).chars, r⟩ := by
  have hcs : (first c cs).chars ++ (r ++ b) = c :: cs := hrest ▸ first_append c cs
  have hpre : c :: ds <+: c :: cs := ⟨b, by rw [← hds, ← hcs, List.append_assoc]⟩
  have hsame : (first c ds).kind = (first c cs).kind ∧ (first c ds).chars = (first c cs).chars := by
    by_cases hx : (first c cs).kind = .unknown
    · have hy : (first c ds).kind = .unknown := by
        by_contra hy
        exact (length_le_of_isPrefix hpre hy).1 hx
      refine ⟨hy.trans hx.symm, ?_⟩
      have hchars := isLeftover_first c cs hx
      rw [isLeftover_first c ds hy, hchars]
      split
      · next hq =>
        -- the rest of the line ends in front of the cut
        rw [if_pos hq] at hchars
        have hline : ∀ d ∈ (first c cs).chars, decide (d ≠ '\n') = true := fun d hd =>
          List.mem_takeWhile_imp (p := fun d => decide (d ≠ '\n')) (hchars ▸ hd)
        rw [← hcs, List.takeWhile_append_of_pos hline, List.self_eq_append_right] at hchars
        have hr : r.takeWhile (· ≠ '\n') = [] := by
          rcases r with _ | ⟨d, r⟩
          · rfl
          · simpa using hchars
        rw [← hds, ← hcs, List.takeWhile_append_of_pos hline, List.takeWhile_append_of_pos hline,
          hr, hchars]
      · rfl
    · rcases first_reaches (first_belongs c cs hx) hds with hsame | ⟨hy, hlt⟩
      · exact hsame
      · exact absurd hlt (Nat.not_lt.2 (length_le_of_isPrefix hpre hy).2)
  have hsplit := first_append c ds
  rw [← hds, hsame.2] at hsplit
  rw [← hsame.1, ← hsame.2, ← List.append_cancel_left hsplit]

theorem ne_of_isBlank {c d : Char} (hd : isBlank d = true) (hc : isBlank c = false) : d ≠ c := by
  rintro rfl
  rw [hd] at hc
  cases hc

theorem not_isAlphanum_of_isBlank {d : Char} (hd : isBlank d = true) : d.isAlphanum = false :=
  Bool.eq_false_iff.2 fun h => ne_of_isBlank hd (not_isBlank_of_isAlphanum h) rfl

theorem not_isDigit_of_isBlank {d : Char} (hd : isBlank d = true) : d.isDigit = false :=
  Bool.eq_false_iff.2 fun h =>
    ne_of_isBlank hd (not_isBlank_of_isAlphanum (isAlphanum_of_isDigit h)) rfl

/-- A lexeme at the end of a text ends there if the character `d` comes behind: a blank, and if the
lexeme is a quote without a second one, a line feed. -/
def EndedBy (x : Lexeme) (d : Char) : Prop :=
  isBlank d = true ∧ (x.kind = .unknown → x.chars.head? = some '"' → d = '\n')

/-- The lexeme that is cut off stays if more text comes behind, unless it is at the end of its text
and the text behind does not end it. -/
def Stays (f : List Char → Lexeme) : Prop :=
  ∀ cs b, ((f cs).rest = [] → ∀ d ∈ b.head?, (f cs).EndedBy d) →
    f (cs ++ b) = (f cs).followedBy b

theorem Stays.ite {f g : List Char → Lexeme} (hf : Stays f) (hg : Stays g) (p : Prop)
    [Decidable p] : Stays fun cs => if p then f cs else g cs := by
  intro cs b
  by_cases hp : p
  · simpa only [if_pos hp] using hf cs b
  · simpa only [if_neg hp] using hg cs b

theorem stays_single (k : Kind) (w : List Char) : Stays fun cs => ⟨k, w, cs⟩ :=
  fun _ _ _ => rfl

theorem stays_word : Stays word := by
  intro cs b h
  obtain ⟨ht, hd⟩ := span_append (p := Char.isAlphanum) fun hnil d hd =>
    not_isAlphanum_of_isBlank (h hnil d hd).1
  rw [word, word, ht, hd]
  rfl

/-- A whole part with no point behind it is an integer. -/
theorem number_of_wholePart {sign cs whole r : List Char} (h : wholePart cs = (whole, r))
    (hr : r.head? ≠ some '.') : number sign cs = ⟨.literal .int, sign ++ whole, r⟩ := by
  rw [number, h]
  split
  · next he =>
    obtain ⟨-, rfl⟩ := Prod.mk.inj he
    exact absurd rfl hr
  · next he =>
    obtain ⟨rfl, rfl⟩ := Prod.mk.inj he
    rfl

/-- A whole part with a point behind it is a real. -/
theorem number_of_wholePart_point {sign cs whole r : List Char}
    (h : wholePart cs = (whole, '.' :: r)) : number sign cs = ⟨.literal .real,
      sign ++ whole ++ '.' :: r.takeWhile Char.isDigit, r.dropWhile Char.isDigit⟩ := by
  simp only [number, h]

theorem stays_number (sign : List Char) : Stays (number sign) := by
  intro cs b h
  rcases hw : wholePart cs with ⟨whole, r⟩
  by_cases hr : r.head? = some '.'
  · obtain ⟨r, rfl⟩ : ∃ ds, r = '.' :: ds := List.head?_eq_some_iff.1 hr
    have hwb : wholePart (cs ++ b) = (whole, '.' :: (r ++ b)) := by
      rw [wholePart_append_of_head? (by simp [hw]), hw]
      rfl
    rw [number_of_wholePart_point hw] at h
    obtain ⟨ht, hd⟩ := span_append (p := Char.isDigit) fun hnil d hd =>
      not_isDigit_of_isBlank (h hnil d hd).1
    rw [number_of_wholePart_point hw, number_of_wholePart_point hwb, ht, hd]
    rfl
  · rw [number_of_wholePart hw hr] at h ⊢
    have hblank : r = [] → ∀ d ∈ b.head?, isBlank d = true := fun hnil d hd => (h hnil d hd).1
    have hwb : wholePart (cs ++ b) = (whole, r ++ b) := by
      rw [wholePart_append_of_head?, hw]
      rw [hw]
      exact fun hnil d hd => not_isDigit_of_isBlank (hblank hnil d hd)
    rw [number_of_wholePart hwb]
    · rfl
    · rcases r with _ | ⟨d, r⟩
      · exact fun hb => ne_of_isBlank (hblank rfl '.' hb) rfl rfl
      · exact hr

theorem stays_signed (c : Char) : Stays (signed c) := by
  intro cs b h
  rcases cs with _ | ⟨d, r⟩
  · rcases b with _ | ⟨d, b⟩
    · rfl
    · have hd := not_isDigit_of_isBlank (h rfl d rfl).1
      simp [signed, hd, followedBy]
  · have hnumber : Stays fun r => number [c] (d :: r) := fun r => stays_number [c] (d :: r)
    have hsign : Stays fun r => ⟨.unknown, [c], d :: r⟩ := fun _ _ _ => rfl
    exact hnumber.ite hsign (d.isDigit = true) r b h

/-- A quote without a second one goes on, unless the line ends. -/
theorem stays_quoted : Stays quoted := by
  intro cs b h
  have hline : cs.dropWhile isQuotable = [] → ∀ d ∈ b.head?, d = '\n' := fun hnil d hd => by
    have hquoted : quoted cs = ⟨.unknown, '"' :: cs.takeWhile isQuotable, []⟩ := by
      rw [quoted, hnil]
    rw [hquoted] at h
    exact (h rfl d hd).2 rfl rfl
  obtain ⟨ht, hd⟩ := span_append (p := isQuotable) fun hnil d hd => by
    rw [hline hnil d hd]
    rfl
  rw [quoted, quoted, ht, hd]
  rcases hr : cs.dropWhile isQuotable with _ | ⟨d, r⟩
  · rcases b with _ | ⟨d, b⟩
    · rfl
    · obtain rfl := hline hr d rfl
      rfl
  · by_cases hq : d = '"'
    · subst hq
      rfl
    · simp [hq, followedBy]

theorem stays_operator (c : Char) : Stays (operator c) := by
  intro cs b h
  rcases cs with _ | ⟨d, r⟩
  · rcases b with _ | ⟨d, b⟩
    · rw [List.append_nil, followedBy, List.append_nil]
    · have hrest : (operator c []).rest = [] := by
        unfold operator
        split <;> simp_all
      have hd : d ≠ '=' := ne_of_isBlank (h hrest d rfl).1 rfl
      unfold operator
      split <;> simp_all [followedBy]
  · unfold operator
    split <;> simp_all [followedBy]

/-- **A lexeme stays if more text comes behind it**, unless it is at the end of its text and what
comes behind does not end it. -/
theorem stays_first (c : Char) : Stays (first c) := by
  unfold first
  split
  · exact stays_single _ _
  · refine Stays.ite (fun cs => stays_word (c :: cs)) ?_ _
    refine Stays.ite (fun cs => stays_number [] (c :: cs)) ?_ _
    refine (stays_signed c).ite ?_ _
    exact stays_quoted.ite (stays_operator c) _

/-- The lexeme of a mark starts with it. -/
theorem eq_char_of_kind_eq_mark {c : Char} {cs : List Char} {m : Mark}
    (h : (first c cs).kind = .mark m) : c = m.char := by
  have hmem := first_belongs c cs (by simp [h])
  rw [h] at hmem
  have hchars : (first c cs).chars = [m.char] := hmem
  obtain ⟨w, hw⟩ := exists_chars_first_eq_cons c cs
  exact (List.cons.inj (hw.symm.trans hchars)).1

end Lexeme

/-! ## Tokens behind blanks -/

open Lexeme

theorem tokens_ne_nil (l : Location) (cs : List Char) : tokens l cs ≠ [] := by
  cases hd : cs.dropWhile isBlank with
  | nil => simp [tokens_of_dropWhile_nil hd]
  | cons c r => simp [tokens_of_dropWhile_cons hd]

theorem tokens_cons_of_not_isBlank {c : Char} (hc : isBlank c = false) (l : Location)
    (r : List Char) :
    tokens l (c :: r) = ⟨(first c r).kind, String.ofList (first c r).chars, l⟩ ::
      tokens (l.after (first c r).chars) (first c r).rest := by
  have hd : (c :: r).dropWhile isBlank = c :: r := List.dropWhile_cons_of_neg (by simp [hc])
  have ht : (c :: r).takeWhile isBlank = [] := List.takeWhile_cons_of_neg (by simp [hc])
  rw [tokens_of_dropWhile_cons hd, ht, Location.after_nil]

/-- Blanks in front of a text only move its tokens. -/
theorem tokens_append_of_isBlank {gap : List Char} (h : ∀ c ∈ gap, isBlank c = true) (l : Location)
    (b : List Char) : tokens l (gap ++ b) = tokens (l.after gap) b := by
  have ht : (gap ++ b).takeWhile isBlank = gap ++ b.takeWhile isBlank :=
    List.takeWhile_append_of_pos h
  have hd : (gap ++ b).dropWhile isBlank = b.dropWhile isBlank := List.dropWhile_append_of_pos h
  cases hb : b.dropWhile isBlank with
  | nil =>
    rw [tokens_of_dropWhile_nil hb, tokens_of_dropWhile_nil (hd.trans hb), ht,
      Location.after_append]
  | cons c r =>
    rw [tokens_of_dropWhile_cons hb, tokens_of_dropWhile_cons (hd.trans hb), ht,
      Location.after_append]

theorem tokens_cons_of_isBlank {c : Char} (hc : isBlank c = true) (l : Location)
    (cs : List Char) : tokens l (c :: cs) = tokens (l.next c) cs :=
  @tokens_append_of_isBlank [c] (by simpa using hc) l cs

theorem tokens_of_isBlank {gap : List Char} (h : ∀ c ∈ gap, isBlank c = true) (l : Location) :
    tokens l gap = [.endOfInput (l.after gap)] := by
  have hblank := tokens_append_of_isBlank h l []
  rw [List.append_nil] at hblank
  rw [hblank, tokens_of_dropWhile_nil rfl]
  rfl

/-- A text is blank, or has a first lexeme behind its blanks. -/
theorem isBlank_or_exists_eq_append (a : List Char) : (∀ c ∈ a, isBlank c = true) ∨
    ∃ gap c r, a = gap ++ c :: r ∧ (∀ d ∈ gap, isBlank d = true) ∧ isBlank c = false := by
  cases hd : a.dropWhile isBlank with
  | nil => exact .inl (List.dropWhile_eq_nil_iff.1 hd)
  | cons c r =>
    refine .inr ⟨a.takeWhile isBlank, c, r, ?_, List.all_eq_true.1 List.all_takeWhile, ?_⟩
    · rw [← hd, List.takeWhile_append_dropWhile]
    · have := List.head?_dropWhile_not isBlank a
      rw [hd] at this
      simpa using this

/-- What blanks have, and what blanks and a lexeme have if the text behind them has it, every text
has. -/
@[elab_as_elim]
theorem lexeme_induction {p : List Char → Prop}
    (blank : ∀ a, (∀ c ∈ a, isBlank c = true) → p a)
    (lexeme : ∀ gap c r, (∀ d ∈ gap, isBlank d = true) → isBlank c = false → p (first c r).rest →
      p (gap ++ c :: r)) (a : List Char) : p a := by
  induction hn : a.length using Nat.strongRecOn generalizing a with
  | ind n ih =>
    rcases isBlank_or_exists_eq_append a with ha | ⟨gap, c, r, rfl, hgap, hc⟩
    · exact blank a ha
    · refine lexeme gap c r hgap hc (ih _ ?_ _ rfl)
      rw [← hn, List.length_append]
      exact Nat.lt_of_lt_of_le (length_rest_first_lt c r) (Nat.le_add_left _ _)

/-! ## Where a text can be cut -/

/-- The characters `a` can be cut off in front of `b`: each lexeme of `a` is the same there. -/
inductive Cut : List Char → List Char → Prop
  | blank {a b : List Char} (ha : ∀ c ∈ a, isBlank c = true) : Cut a b
  | lexeme {gap : List Char} {c : Char} {r b : List Char} (hgap : ∀ d ∈ gap, isBlank d = true)
      (hc : isBlank c = false) (hfirst : first c (r ++ b) = (first c r).followedBy b)
      (h : Cut (first c r).rest b) : Cut (gap ++ c :: r) b

/-- **At a cut the tokens come apart.** -/
theorem Cut.tokens_append {a b : List Char} (h : Cut a b) (l : Location) :
    tokens l (a ++ b) = (tokens l a).dropLast ++ tokens (l.after a) b := by
  induction h generalizing l with
  | blank ha =>
    rw [tokens_append_of_isBlank ha, tokens_of_isBlank ha]
    rfl
  | @lexeme gap c r b hgap hc hfirst h ih =>
    have hsplit := first_append c r
    have hafter : ((l.after gap).after (first c r).chars).after (first c r).rest =
        l.after (gap ++ c :: r) := by
      rw [← Location.after_append, hsplit, ← Location.after_append]
    rw [List.append_assoc, List.cons_append, tokens_append_of_isBlank hgap,
      tokens_append_of_isBlank hgap, tokens_cons_of_not_isBlank hc, tokens_cons_of_not_isBlank hc,
      hfirst, List.dropLast_cons_of_ne_nil (tokens_ne_nil _ _), List.cons_append, ← hafter, ← ih]
    rfl

/-- The token stands on both sides of the offset. -/
def Token.Straddles (t : Token) (offset : Nat) : Prop :=
  t.location.offset < offset ∧ offset < t.location.offset + t.text.utf8ByteSize

/-- Of two beginnings of a text, the one with fewer bytes is a beginning of the other. -/
theorem isPrefix_of_utf8ByteSize_le {u v w : List Char} (hu : u <+: w) (hv : v <+: w)
    (h : (String.ofList u).utf8ByteSize ≤ (String.ofList v).utf8ByteSize) : u <+: v := by
  rcases List.prefix_or_prefix_of_prefix hu hv with huv | ⟨t, rfl⟩
  · exact huv
  · rw [String.ofList_append, String.utf8ByteSize_append] at h
    have ht : (String.ofList t).utf8ByteSize = 0 := by omega
    rw [String.utf8ByteSize_eq_zero_iff, String.ofList_eq_empty_iff] at ht
    rw [ht, List.append_nil]

/-- **Where no token stands on both sides, there is a cut.** -/
theorem cut_of_not_straddles {l : Location} {a b : List Char}
    (h : ∀ t ∈ tokens l (a ++ b), t.isEnd = false → ¬ t.Straddles (l.after a).offset) :
    Cut a b := by
  induction a using lexeme_induction generalizing l with
  | blank a ha => exact .blank ha
  | lexeme gap c r hgap hc ih =>
    rw [List.append_assoc, List.cons_append, tokens_append_of_isBlank hgap,
      tokens_cons_of_not_isBlank hc, List.forall_mem_cons, Location.after_append] at h
    obtain ⟨hfirst, hrest⟩ := h
    have hsplit := first_append c (r ++ b)
    -- the first lexeme ends in front of `b`
    have hle : (String.ofList (first c (r ++ b)).chars).utf8ByteSize ≤
        (String.ofList (c :: r)).utf8ByteSize := by
      have hpos : 0 < (String.ofList (c :: r)).utf8ByteSize := by
        rw [String.ofList_cons, String.utf8ByteSize_append, String.utf8ByteSize_singleton]
        exact Nat.add_pos_left c.utf8Size_pos _
      have hcut := Location.offset_after (l.after gap) (c :: r)
      have hnot := hfirst (by simp [Token.isEnd, kind_first_ne_endOfInput])
      simp only [Token.Straddles] at hnot
      omega
    obtain ⟨r₁, hr₁⟩ := isPrefix_of_utf8ByteSize_le ⟨_, hsplit⟩ ⟨b, rfl⟩ hle
    have hrest₁ : (first c (r ++ b)).rest = r₁ ++ b := by
      rw [← List.cons_append, ← hr₁, List.append_assoc] at hsplit
      exact List.append_cancel_left hsplit
    have hcut := first_of_append hrest₁ hr₁
    refine .lexeme hgap hc ?_ (ih (l := (l.after gap).after (first c (r ++ b)).chars) ?_)
    · rw [hcut, followedBy, ← hrest₁]
    · rw [hrest₁, ← hr₁, Location.after_append] at hrest
      rwa [hcut]

/-! ## Texts that stand elsewhere -/

namespace Location

/-- The function goes along with every character. -/
def Carries (f : Location → Location) : Prop :=
  ∀ l c, 1 ≤ l.line → f (l.next c) = (f l).next c

theorem one_le_line_after {l : Location} (h : 1 ≤ l.line) (cs : List Char) :
    1 ≤ (l.after cs).line := by
  rw [line_after]
  exact Nat.le_add_right_of_le h

theorem Carries.after {f : Location → Location} (hf : Carries f) {l : Location} (h : 1 ≤ l.line)
    (cs : List Char) : f (l.after cs) = (f l).after cs := by
  induction cs generalizing l with
  | nil => rfl
  | cons c cs ih =>
    rw [after_cons, after_cons, ← hf l c h]
    exact ih (one_le_line_after h [c])

/-- Where a place is once `bytes` bytes and `lines` lines more stand in front of its line. -/
def below (bytes lines : Nat) (l : Location) : Location :=
  ⟨l.offset + bytes, l.line + lines, l.column⟩

theorem carries_below (bytes lines : Nat) : Carries (below bytes lines) := by
  intro l c _
  by_cases hc : c = '\n'
  · simp [below, next, hc, Nat.add_right_comm]
  · simp [below, next, hc, Nat.add_right_comm]

/-- Where a place of a text is once `front` stands in front of the text: so many bytes and lines
further on, and if it was in the first line, then so many characters further to the right as the
last line of `front` has. -/
def behind (front : String) (l : Location) : Location where
  offset := l.offset + front.utf8ByteSize
  line := l.line + front.toList.count '\n'
  column :=
    if l.line = 1 then l.column + (front.toList.rtakeWhile (· ≠ '\n')).length else l.column

theorem carries_behind (front : String) : Carries (behind front) := by
  intro l c h
  by_cases hc : c = '\n'
  · simp [behind, next, hc, Nat.add_right_comm, Nat.ne_of_gt h]
  · by_cases hl : l.line = 1
    · simp [behind, next, hc, hl, Nat.add_right_comm]
    · simp [behind, next, hc, hl, Nat.add_right_comm]

theorem behind_start (front : String) : start.behind front = start.after front.toList := by
  have hmk : start.after front.toList = ⟨(start.after front.toList).offset,
    (start.after front.toList).line, (start.after front.toList).column⟩ := rfl
  rw [hmk, offset_after_start, line_after, column_after_start]
  simp [behind, start]

end Location

/-- A text that stands elsewhere has the same tokens elsewhere. -/
theorem Location.Carries.tokens {f : Location → Location} (hf : Carries f) {l : Location}
    (h : 1 ≤ l.line) (cs : List Char) :
    tokens (f l) cs = (tokens l cs).map (Token.relocate f) := by
  induction cs using lexeme_induction generalizing l with
  | blank cs hcs =>
    rw [tokens_of_isBlank hcs, tokens_of_isBlank hcs, ← hf.after h]
    rfl
  | lexeme gap c r hgap hc ih =>
    have hgap' := Location.one_le_line_after h gap
    rw [tokens_append_of_isBlank hgap, tokens_append_of_isBlank hgap, ← hf.after h,
      tokens_cons_of_not_isBlank hc, tokens_cons_of_not_isBlank hc, ← hf.after hgap',
      ih (Location.one_le_line_after hgap' _)]
    rfl

/-! ## Tokens of a text and of its lines -/

/-- The tokens of a text are pieces of it, and the end of input is where it ends. -/
theorem tokens_eq_properTokens_append (text : String) :
    tokens .start text.toList =
        properTokens text ++ [.endOfInput (Location.start.after text.toList)] ∧
      ∀ t ∈ properTokens text, t.IsPieceOf text := by
  obtain ⟨ps, last, h, htokens⟩ := exists_tiles_tokens [] text.toList
  have hpiece : ∀ t ∈ ps.map Prod.snd, t.IsPieceOf text := by
    simpa only [List.nil_append, String.ofList_toList] using h.isPieceOf
  have hproper : properTokens text = ps.map Prod.snd := by
    have hkind : ∀ t ∈ ps.map Prod.snd, (!t.isEnd) = true := fun t ht => by
      simp [Token.isEnd, (hpiece t ht).kind_ne]
    have hremaining : (Scanner.ofString text).remaining = _ :=
      (Scanner.remaining_of_pending_none rfl).trans htokens
    rw [properTokens, hremaining, List.filter_append, List.filter_eq_self.2 hkind]
    exact List.append_nil _
  rw [hproper]
  exact ⟨htokens, hpiece⟩

/-- The tape of a text: its tokens, and the end of input where it ends. -/
def tapeOf (text : String) : Tape := ⟨properTokens text, Location.start.after text.toList⟩

theorem Scanner.readsAs_tapeOf (text : String) : (ofString text).ReadsAs (tapeOf text) where
  coherent := @Reachable.coherent text _ .start
  remaining_eq := (remaining_of_pending_none rfl).trans (tokens_eq_properTokens_append text).1
  isEnd_eq_false _ := isEnd_eq_false_of_mem_properTokens

theorem drain_eq_tokens (text : String) :
    (Scanner.ofString text).drain.1 = tokens .start text.toList :=
  Scanner.remaining_of_pending_none rfl

/-- A piece of a text that starts in front of a character and ends behind it holds it. -/
theorem mem_of_append_eq {before w after a b : List Char} {c : Char}
    (h : before ++ (w ++ after) = a ++ c :: b)
    (hstart : (String.ofList before).utf8ByteSize ≤ (String.ofList a).utf8ByteSize)
    (hstop : (String.ofList a).utf8ByteSize + c.utf8Size ≤
      (String.ofList before).utf8ByteSize + (String.ofList w).utf8ByteSize) : c ∈ w := by
  obtain ⟨a', rfl⟩ : before <+: a := isPrefix_of_utf8ByteSize_le ⟨_, h⟩ ⟨_, rfl⟩ hstart
  rw [List.append_assoc] at h
  have h' : w ++ after = (a' ++ [c]) ++ b := by simpa using List.append_cancel_left h
  have hle : (String.ofList (a' ++ [c])).utf8ByteSize ≤ (String.ofList w).utf8ByteSize := by
    rw [String.ofList_append, String.utf8ByteSize_append] at hstop ⊢
    rw [← String.singleton_eq_ofList, String.utf8ByteSize_singleton]
    omega
  obtain ⟨w', rfl⟩ := isPrefix_of_utf8ByteSize_le ⟨_, h'.symm⟩ ⟨_, rfl⟩ hle
  simp

/-- No token stands on both sides of a line feed, in front of it or behind it. -/
theorem not_straddles_newline (a b : String) : ∀ t ∈ properTokens (a ++ "\n" ++ b),
    ¬ t.Straddles a.utf8ByteSize ∧ ¬ t.Straddles (a ++ "\n").utf8ByteSize := by
  intro t ht
  have hpiece := (tokens_eq_properTokens_append _).2 t ht
  obtain ⟨before, after, htext, hl⟩ := hpiece.exists_append
  have hoffset : t.location.offset = before.utf8ByteSize := hl ▸ Location.offset_after_start before
  have hsize : (a ++ "\n").utf8ByteSize = a.utf8ByteSize + 1 := String.utf8ByteSize_append
  have hone : '\n'.utf8Size = 1 := rfl
  have hlist : before.toList ++ (t.text.toList ++ after.toList) = a.toList ++ '\n' :: b.toList := by
    simpa using (congrArg String.toList htext).symm
  have hout : ¬ (before.utf8ByteSize ≤ a.utf8ByteSize ∧
      a.utf8ByteSize + 1 ≤ before.utf8ByteSize + t.text.utf8ByteSize) := fun ⟨h₁, h₂⟩ =>
    hpiece.newline_notMem (mem_of_append_eq hlist (by simpa using h₁) (by simpa [hone] using h₂))
  simp only [Token.Straddles, hoffset, hsize]
  omega

theorem cut_of_forall_properTokens {a b : String}
    (h : ∀ t ∈ properTokens (a ++ b), ¬ t.Straddles a.utf8ByteSize) : Cut a.toList b.toList := by
  refine cut_of_not_straddles (l := .start) fun t ht hend => ?_
  rw [← String.toList_append, (tokens_eq_properTokens_append _).1, List.mem_append] at ht
  rw [Location.offset_after_start]
  refine h t (ht.resolve_right fun ht => ?_)
  rw [List.mem_singleton.1 ht] at hend
  cases hend

/-- In front of a line feed any text can be cut off. -/
theorem cut_newline (a b : List Char) : Cut a ('\n' :: b) := by
  have hcut : Cut (String.ofList a).toList ("\n" ++ String.ofList b).toList :=
    cut_of_forall_properTokens fun t ht =>
      (not_straddles_newline (String.ofList a) (String.ofList b) t (by rwa [String.append_assoc])).1
  simpa using hcut

theorem Cut.tokens_toList_append {a b : String} (h : Cut a.toList b.toList) :
    tokens .start (a ++ b).toList =
      properTokens a ++ (tokens .start b.toList).map (Token.relocate (Location.behind a)) := by
  rw [String.toList_append, h.tokens_append, (tokens_eq_properTokens_append a).1,
    List.dropLast_concat, ← Location.behind_start,
    (Location.carries_behind a).tokens (l := .start) (Nat.le_refl 1)]

/-- The tokens of `a` and behind them those of `b` are the tokens of the whole text if no token of
it stands on both sides, and only then. -/
theorem drain_append_iff (a b : String) :
    (∀ t ∈ properTokens (a ++ b), ¬ t.Straddles a.utf8ByteSize) ↔
      (Scanner.ofString (a ++ b)).drain.1 = properTokens a ++
        (Scanner.ofString b).drain.1.map (Token.relocate (Location.behind a)) := by
  rw [drain_eq_tokens, drain_eq_tokens]
  refine ⟨fun h => (cut_of_forall_properTokens h).tokens_toList_append, fun h t ht => ?_⟩
  have hmem : t ∈ tokens .start (a ++ b).toList := by
    rw [(tokens_eq_properTokens_append _).1]
    exact List.mem_append_left _ ht
  rw [h, List.mem_append] at hmem
  rintro ⟨hstart, hstop⟩
  rcases hmem with hmem | hmem
  · have hpiece := (tokens_eq_properTokens_append a).2 t hmem
    exact absurd hstop (Nat.not_lt.2 hpiece.stop_le)
  · obtain ⟨u, -, rfl⟩ := List.mem_map.1 hmem
    exact absurd hstart (Nat.not_lt.2 (Nat.le_add_left _ _))

/-! ## Line by line -/

/-- The lines of a text. -/
def lines (cs : List Char) : List String := (cs.splitOn '\n').map String.ofList

/-- The tokens of lines, each of which is lexed alone; above the first one stand so many bytes and
lines. -/
def lineTokens (bytes above : Nat) : List String → List Token
  | [] => []
  | s :: ss => (properTokens s).map (Token.relocate (Location.below bytes above)) ++
      lineTokens (bytes + s.utf8ByteSize + 1) (above + 1) ss

theorem lineTokens_cons (bytes above : Nat) (s : String) (ss : List String) :
    lineTokens bytes above (s :: ss) =
      (properTokens s).map (Token.relocate (Location.below bytes above)) ++
        lineTokens (bytes + s.utf8ByteSize + 1) (above + 1) ss := rfl

theorem tokens_below (bytes above : Nat) (s : String) :
    tokens (Location.start.below bytes above) s.toList =
      (properTokens s).map (Token.relocate (Location.below bytes above)) ++
        [.endOfInput ((Location.start.below bytes above).after s.toList)] := by
  have hcarries := Location.carries_below bytes above
  rw [hcarries.tokens (l := .start) (Nat.le_refl 1), (tokens_eq_properTokens_append s).1,
    List.map_append, ← hcarries.after (l := .start) (Nat.le_refl 1)]
  rfl

/-- Behind the line feed of a line the next line starts. -/
theorem Location.next_after_line {s : String} (hs : '\n' ∉ s.toList) (bytes above : Nat) :
    ((start.below bytes above).after s.toList).next '\n' =
      start.below (bytes + s.utf8ByteSize + 1) (above + 1) := by
  have hone : '\n'.utf8Size = 1 := rfl
  simp [next, offset_after, line_after, List.count_eq_zero_of_not_mem hs, below, start, hone,
    Nat.add_assoc]

/-- **The tokens of a text are those of its lines**, one line after another. -/
theorem tokens_eq_lineTokens_append (bytes above : Nat) (cs : List Char) :
    tokens (Location.start.below bytes above) cs = lineTokens bytes above (lines cs) ++
      [.endOfInput ((Location.start.below bytes above).after cs)] := by
  -- by induction on the length of the text, which the first line shortens
  induction hn : cs.length using Nat.strongRecOn generalizing bytes above cs with
  | ind n ih =>
    by_cases hcs : '\n' ∈ cs
    · obtain ⟨line, r, rfl, hline⟩ := List.eq_append_cons_of_mem hcs
      obtain ⟨s, rfl⟩ : ∃ s : String, s.toList = line := ⟨_, String.toList_ofList⟩
      have hlines : lines (s.toList ++ '\n' :: r) = s :: lines r := by
        simp [lines, List.splitOn_append_cons_self_of_not_mem hline]
      have hlt : r.length < n := by
        rw [← hn, List.length_append, List.length_cons]
        omega
      rw [(cut_newline _ _).tokens_append, tokens_below, List.dropLast_concat,
        tokens_cons_of_isBlank rfl, hlines, lineTokens_cons, Location.after_append,
        Location.after_cons, Location.next_after_line hline, ih _ hlt _ _ _ rfl, List.append_assoc]
    · have hlines : lines cs = [String.ofList cs] := by
        simp [lines, List.splitOn_eq_singleton hcs]
      have hline := tokens_below bytes above (String.ofList cs)
      rw [String.toList_ofList] at hline
      rw [hline, hlines, lineTokens_cons, lineTokens, List.append_nil]

/-- **A text can be cut between its tokens.** Let `a` be in front of `b` in a text. The tokens of
the text are those of `a` and behind them those of `b`, so many bytes, lines and characters of the
last line of `a` further on, if no token of the text stands on both sides of the cut, and only then.
None does in front of a line feed or behind one. So the tokens of a text are those of its lines,
each lexed alone and put below the lines above it; what one line holds does not change the tokens of
another. -/
theorem drain_append_and_drain_lines (a b text : String) :
    ((∀ t ∈ properTokens (a ++ b), ¬ t.Straddles a.utf8ByteSize) ↔
      (Scanner.ofString (a ++ b)).drain.1 = properTokens a ++
        (Scanner.ofString b).drain.1.map (Token.relocate (Location.behind a))) ∧
    (∀ t ∈ properTokens (a ++ "\n" ++ b),
      ¬ t.Straddles a.utf8ByteSize ∧ ¬ t.Straddles (a ++ "\n").utf8ByteSize) ∧
    (Scanner.ofString text).drain.1 = lineTokens 0 0 (lines text.toList) ++
      [.endOfInput (Location.start.after text.toList)] := by
  refine ⟨drain_append_iff a b, not_straddles_newline a b, ?_⟩
  rw [drain_eq_tokens]
  exact tokens_eq_lineTokens_append 0 0 text.toList

end SqlScript
