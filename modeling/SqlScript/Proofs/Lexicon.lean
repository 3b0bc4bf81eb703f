import Mathlib
import SqlScript.Proofs.Words

/-!
# The lexicon

The lexical grammar as formal languages over characters: `Kind.language k` holds the texts that
may be a token of the kind `k`, and `lexicon` is their union. Each language is written down as the
regular expression of its class, and nothing in them says how a text is cut into tokens. What is
in each class is then said with lists of characters (`Lexicon.mem_word` and the lemmas behind it).
-/

namespace SqlScript

open Lexeme
open scoped Computability

/-! ## Languages -/

/-- The texts of one character for which `p` holds. -/
def oneOf (p : Char → Prop) : Language Char := {w | ∃ c, p c ∧ w = [c]}

theorem mem_oneOf {p : Char → Prop} {w : List Char} : w ∈ oneOf p ↔ ∃ c, p c ∧ w = [c] := Iff.rfl

theorem mem_kstar_oneOf {p : Char → Prop} {w : List Char} : w ∈ (oneOf p)∗ ↔ ∀ c ∈ w, p c := by
  rw [Language.mem_kstar]
  constructor
  · rintro ⟨ws, rfl, hws⟩ c hc
    obtain ⟨w, hw, hcw⟩ := List.mem_flatten.1 hc
    obtain ⟨d, hd, rfl⟩ := hws w hw
    rw [List.mem_singleton] at hcw
    exact hcw ▸ hd
  · intro h
    refine ⟨w.map fun c => [c], (List.flatMap_singleton' w).symm, fun v hv => ?_⟩
    obtain ⟨c, hc, rfl⟩ := List.mem_map.1 hv
    exact ⟨c, h c hc, rfl⟩

theorem mem_oneOf_mul {p : Char → Prop} {l : Language Char} {w : List Char} :
    w ∈ oneOf p * l ↔ ∃ c v, p c ∧ v ∈ l ∧ w = c :: v := by
  rw [Language.mem_mul]
  constructor
  · rintro ⟨_, ⟨c, hc, rfl⟩, v, hv, rfl⟩
    exact ⟨c, v, hc, hv, rfl⟩
  · rintro ⟨c, v, hc, hv, rfl⟩
    exact ⟨[c], ⟨c, hc, rfl⟩, v, hv, rfl⟩

namespace Lexicon

/-- A letter of the alphabet, small or capital. -/
def IsLetter (c : Char) : Prop := ('A' ≤ c ∧ c ≤ 'Z') ∨ ('a' ≤ c ∧ c ≤ 'z')

/-- A decimal digit. -/
def IsDigit (c : Char) : Prop := '0' ≤ c ∧ c ≤ '9'

/-- `[A-Za-z][A-Za-z0-9]*` -/
def word : Language Char := oneOf IsLetter * (oneOf fun c => IsLetter c ∨ IsDigit c)∗

/-- `[+-]?` -/
def sign : Language Char := 1 + oneOf fun c => c = '+' ∨ c = '-'

/-- `[0-9]+` -/
def digits : Language Char := oneOf IsDigit * (oneOf IsDigit)∗

/-- `0|[1-9][0-9]*` -/
def whole : Language Char :=
  oneOf (fun c => c = '0') + oneOf (fun c => '1' ≤ c ∧ c ≤ '9') * (oneOf IsDigit)∗

/-- `\.[0-9]*` -/
def decimals : Language Char := oneOf (fun c => c = '.') * (oneOf IsDigit)∗

/-- `"[^"\n]*"` -/
def text : Language Char :=
  oneOf (fun c => c = '"') * ((oneOf fun c => c ≠ '"' ∧ c ≠ '\n')∗ * oneOf fun c => c = '"')

end Lexicon

/-- The texts that may be a token of the kind. The end of the text has none, and neither has an
unknown piece. -/
def Kind.language : Kind → Language Char
  | keyword k => {k.spelling.toList}
  | mark m => {[m.char]}
  | comparison c => {c.spelling.toList}
  | identifier => {w | w ∈ Lexicon.word ∧ ∀ k : Keyword, w ≠ k.spelling.toList}
  | literal .int => Lexicon.sign * Lexicon.whole
  | literal .real => Lexicon.sign * (Lexicon.whole * Lexicon.decimals)
  | literal .text => Lexicon.text
  | endOfInput => 0
  | unknown => 0

/-- The texts that may be a token of some kind. -/
def lexicon : Language Char := ⨆ k : Kind, k.language

theorem mem_lexicon {w : List Char} : w ∈ lexicon ↔ ∃ k : Kind, w ∈ k.language :=
  Language.mem_iSup

namespace Lexicon

/-! ## Their texts -/

theorem isAlpha_iff {c : Char} : c.isAlpha = true ↔ IsLetter c := by
  simp [Char.isAlpha, Char.isUpper, Char.isLower, IsLetter, Char.le_def]

theorem isDigit_iff {c : Char} : c.isDigit = true ↔ IsDigit c := by
  simp [Char.isDigit, IsDigit, Char.le_def]

theorem isAlphanum_iff {c : Char} : c.isAlphanum = true ↔ IsLetter c ∨ IsDigit c := by
  rw [Char.isAlphanum, Bool.or_eq_true, isAlpha_iff, isDigit_iff]

theorem mem_word {w : List Char} : w ∈ word ↔
    ∃ c cs, w = c :: cs ∧ c.isAlpha = true ∧ ∀ d ∈ cs, d.isAlphanum = true := by
  simp only [word, mem_oneOf_mul, mem_kstar_oneOf, isAlpha_iff, isAlphanum_iff]
  constructor
  · rintro ⟨c, cs, hc, hcs, rfl⟩
    exact ⟨c, cs, rfl, hc, hcs⟩
  · rintro ⟨c, cs, rfl, hc, hcs⟩
    exact ⟨c, cs, hc, hcs, rfl⟩

theorem mem_sign {s : List Char} : s ∈ sign ↔ s = [] ∨ ∃ c, isSign c = true ∧ s = [c] := by
  simp only [sign, Language.mem_add, Language.mem_one, mem_oneOf, isSign, Bool.or_eq_true,
    decide_eq_true_eq]

theorem mem_digits {w : List Char} : w ∈ digits ↔
    ∃ d ds, w = d :: ds ∧ d.isDigit = true ∧ ∀ e ∈ ds, e.isDigit = true := by
  simp only [digits, mem_oneOf_mul, mem_kstar_oneOf, isDigit_iff]
  constructor
  · rintro ⟨d, ds, hd, hds, rfl⟩
    exact ⟨d, ds, rfl, hd, hds⟩
  · rintro ⟨d, ds, rfl, hd, hds⟩
    exact ⟨d, ds, hd, hds, rfl⟩

theorem mem_whole {q : List Char} : q ∈ whole ↔ q = ['0'] ∨
    ∃ d ds, q = d :: ds ∧ d ≠ '0' ∧ d.isDigit = true ∧ ∀ e ∈ ds, e.isDigit = true := by
  have hd : ∀ d : Char, ('1' ≤ d ∧ d ≤ '9') ↔ d ≠ '0' ∧ d.isDigit = true := by
    intro d
    rw [isDigit_iff, IsDigit, Ne, ← Char.toNat_inj]
    simp only [Char.le_def, UInt32.le_iff_toNat_le, Char.toNat]
    simp
    omega
  simp only [whole, Language.mem_add, mem_oneOf, exists_eq_left, mem_oneOf_mul, mem_kstar_oneOf, hd,
    ← isDigit_iff]
  refine or_congr_right ⟨?_, ?_⟩
  · rintro ⟨d, ds, ⟨hne, hdig⟩, hds, rfl⟩
    exact ⟨d, ds, rfl, hne, hdig, hds⟩
  · rintro ⟨d, ds, rfl, hne, hdig, hds⟩
    exact ⟨d, ds, ⟨hne, hdig⟩, hds, rfl⟩

theorem isDigit_of_mem_digits {w : List Char} (h : w ∈ digits) : ∀ c ∈ w, c.isDigit = true := by
  obtain ⟨d, ds, rfl, hd, hds⟩ := mem_digits.1 h
  exact List.forall_mem_cons.2 ⟨hd, hds⟩

/-- A whole part is made of digits. -/
theorem mem_digits_of_mem_whole {q : List Char} (h : q ∈ whole) : q ∈ digits := by
  rcases mem_whole.1 h with rfl | ⟨d, ds, rfl, -, hd, hds⟩
  · exact mem_digits.2 ⟨'0', [], rfl, rfl, by simp⟩
  · exact mem_digits.2 ⟨d, ds, rfl, hd, hds⟩

/-- The digits of a natural number are a whole part. -/
theorem toDigits_mem_whole (n : Nat) : Nat.toDigits 10 n ∈ whole := by
  obtain ⟨d, ds, hds, hd⟩ := exists_toDigits_eq_cons n
  rw [mem_whole]
  by_cases h0 : d = '0'
  · obtain rfl : n = 0 := eq_zero_of_toDigits_eq_cons (h0 ▸ hds)
    exact .inl rfl
  · refine .inr ⟨d, ds, hds, h0, hd, fun e he => ?_⟩
    exact isDigit_of_mem_toDigits (hds ▸ List.mem_cons_of_mem d he)

theorem mem_decimals {w : List Char} :
    w ∈ decimals ↔ ∃ ds, w = '.' :: ds ∧ ∀ d ∈ ds, d.isDigit = true := by
  simp only [decimals, mem_oneOf_mul, mem_kstar_oneOf, isDigit_iff]
  constructor
  · rintro ⟨_, ds, rfl, hds, rfl⟩
    exact ⟨ds, rfl, hds⟩
  · rintro ⟨ds, rfl, hds⟩
    exact ⟨'.', ds, rfl, hds, rfl⟩

theorem mem_text {w : List Char} :
    w ∈ text ↔ ∃ body, w = '"' :: (body ++ ['"']) ∧ ∀ c ∈ body, isQuotable c = true := by
  have hq : ∀ c, (c ≠ '"' ∧ c ≠ '\n') ↔ isQuotable c = true := by simp [isQuotable]
  rw [text, mem_oneOf_mul]
  simp only [Language.mem_mul, mem_kstar_oneOf, mem_oneOf, hq]
  constructor
  · rintro ⟨_, _, rfl, ⟨body, hb, _, ⟨_, rfl, rfl⟩, rfl⟩, rfl⟩
    exact ⟨body, rfl, hb⟩
  · rintro ⟨body, rfl, hb⟩
    exact ⟨'"', _, rfl, ⟨body, hb, _, ⟨'"', rfl, rfl⟩, rfl⟩, rfl⟩

end Lexicon

theorem Keyword.spelling_mem_word (k : Keyword) : k.spelling.toList ∈ Lexicon.word := by
  have hw : ∃ c cs, k.spelling.toList = c :: cs ∧ c.isAlpha = true ∧
      cs.all Char.isAlphanum = true := by
    cases k with
    | type d => cases d <;> exact ⟨_, _, rfl, by decide, by decide⟩
    | _ => exact ⟨_, _, rfl, by decide, by decide⟩
  obtain ⟨c, cs, hs, hc, hcs⟩ := hw
  exact Lexicon.mem_word.2 ⟨c, cs, hs, hc, List.all_eq_true.1 hcs⟩

end SqlScript
