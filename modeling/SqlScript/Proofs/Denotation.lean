import SqlScript.Proofs.Nearest

/-!
# What literals denote

An integer literal denotes an integer, and a real literal a number and a sign. `DenotesInteger` and
`DenotesDecimal` say which, by the digits of the text alone. The readers find just that: a text is
read as the integer that it denotes if 32 bits are enough for it (`Numeral.integer?_eq_some_iff`),
and as the single-precision number nearest to the number that it denotes if that one is finite
(`Numeral.real?_eq_some_iff`). Any other text is not read.

The decimal notation of an integer denotes it (`denotesInteger_toString`), and the six places of a
finite number denote the nearest number with six places (`Binary32.hasSixPlaces_sixPlaces`).
-/

namespace SqlScript

/-! ## Decimal notation -/

/-- The integer that a sign and digits write. -/
def integerValue (sign digits : List Char) : ℤ :=
  if sign = ['-'] then -(Nat.ofDigitChars 10 digits 0 : ℤ) else Nat.ofDigitChars 10 digits 0

/-- The number that a sign, the digits of a whole part and the digits behind a point write. -/
def decimalValue (sign whole decimals : List Char) : ℚ :=
  signed (sign = ['-'])
    (Nat.ofDigitChars 10 whole 0 + Nat.ofDigitChars 10 decimals 0 / 10 ^ decimals.length)

/-- All the digits together are the number in units of the last place. -/
theorem decimalValue_eq (sign whole decimals : List Char) : decimalValue sign whole decimals =
    signed (sign = ['-']) (Nat.ofDigitChars 10 (whole ++ decimals) 0 / 10 ^ decimals.length) := by
  have hshift : Nat.ofDigitChars 10 decimals (Nat.ofDigitChars 10 whole 0) =
      10 ^ decimals.length * Nat.ofDigitChars 10 whole 0 + Nat.ofDigitChars 10 decimals 0 :=
    Nat.ofDigitChars_eq_ofDigitChars_zero
  rw [decimalValue, Nat.ofDigitChars_append, hshift]
  congr 1
  push_cast
  field_simp

/-- The text is a sign or none and digits, and writes `n`. -/
def DenotesInteger (cs : List Char) (n : ℤ) : Prop :=
  ∃ sign ∈ Lexicon.sign, ∃ digits ∈ Lexicon.digits,
    cs = sign ++ digits ∧ integerValue sign digits = n

/-- The text is a sign or none, digits, a point and perhaps more digits, and writes `q`. The sign is
a minus sign if `negative`, which tells the two zeros apart. -/
def DenotesDecimal (cs : List Char) (negative : Bool) (q : ℚ) : Prop :=
  ∃ sign ∈ Lexicon.sign, ∃ whole ∈ Lexicon.digits, ∃ decimals,
    (∀ c ∈ decimals, c.isDigit = true) ∧ cs = sign ++ (whole ++ '.' :: decimals) ∧
      negative = decide (sign = ['-']) ∧ q = decimalValue sign whole decimals

/-! ## Reading -/

namespace Numeral

/-- The sign in front of digits is taken off, and a minus sign is kept in mind. -/
theorem unsigned_append {sign digits : List Char} (hsign : sign ∈ Lexicon.sign)
    (hdigits : digits ∈ Lexicon.digits) (r : List Char) :
    unsigned (sign ++ (digits ++ r)) = digits ++ r ∧
      read (sign ++ (digits ++ r)) = readDigits (sign = ['-']) (digits ++ r) := by
  obtain ⟨d, ds, rfl, hd, -⟩ := Lexicon.mem_digits.1 hdigits
  rcases Lexicon.mem_sign.1 hsign with rfl | ⟨c, hc, rfl⟩
  · have hminus : d ≠ '-' := ne_of_isDigit hd (by decide)
    have hplus : d ≠ '+' := ne_of_isDigit hd (by decide)
    simp [unsigned, read, hminus, hplus]
  · obtain rfl | rfl : c = '+' ∨ c = '-' := by simpa [isSign] using hc
    · exact ⟨rfl, rfl⟩
    · exact ⟨rfl, rfl⟩

theorem exists_sign_append (cs : List Char) : ∃ sign ∈ Lexicon.sign, cs = sign ++ unsigned cs := by
  unfold unsigned
  split
  · exact ⟨['-'], Lexicon.mem_sign.2 (.inr ⟨'-', rfl, rfl⟩), rfl⟩
  · exact ⟨['+'], Lexicon.mem_sign.2 (.inr ⟨'+', rfl, rfl⟩), rfl⟩
  · exact ⟨[], Lexicon.mem_sign.2 (.inl rfl), rfl⟩

theorem areDigits_iff {cs : List Char} : areDigits cs = true ↔ cs ∈ Lexicon.digits := by
  rw [Lexicon.mem_digits]
  cases cs with
  | nil => simp [areDigits]
  | cons d ds => simp [areDigits]

end Numeral

open Numeral

/-! ### Integers -/

namespace DenotesInteger

variable {cs : List Char} {n : ℤ}

theorem toInt_read (h : DenotesInteger cs n) : (read cs).toInt = n := by
  obtain ⟨sign, hsign, digits, hdigits, rfl, rfl⟩ := h
  have hread := (unsigned_append hsign hdigits []).2
  rw [List.append_nil] at hread
  rw [hread, readDigits_whole (Lexicon.isDigit_of_mem_digits hdigits)]
  simp only [toInt, integerValue, decide_eq_true_eq]

/-- No text denotes two integers. -/
theorem unique {m : ℤ} (hm : DenotesInteger cs m) (hn : DenotesInteger cs n) : m = n :=
  hm.toInt_read.symm.trans hn.toInt_read

theorem areDigits_unsigned (h : DenotesInteger cs n) : areDigits (unsigned cs) = true := by
  obtain ⟨sign, hsign, digits, hdigits, rfl, -⟩ := h
  have hunsigned := (unsigned_append hsign hdigits []).1
  rw [List.append_nil] at hunsigned
  rw [hunsigned, areDigits_iff]
  exact hdigits

end DenotesInteger

/-- **An integer is read exactly**, and nothing else is read as one. -/
theorem Numeral.integer?_eq_some_iff {cs : List Char} {i : Int32} :
    integer? cs = some i ↔ DenotesInteger cs i.toInt := by
  unfold integer?
  constructor
  · intro h
    split at h
    · next hdigits =>
      obtain ⟨sign, hsign, hcs⟩ := exists_sign_append cs
      have hdenotes : DenotesInteger cs _ := ⟨sign, hsign, _, areDigits_iff.1 hdigits, hcs, rfl⟩
      rw [int32?_eq_some_iff, hdenotes.toInt_read] at h
      exact h ▸ hdenotes
    · cases h
  · intro h
    rw [if_pos h.areDigits_unsigned, int32?_eq_some_iff, h.toInt_read]

/-- The decimal notation of an integer is a literal that writes it. -/
theorem exists_toList_toString_int (i : ℤ) : ∃ sign ∈ Lexicon.sign, ∃ whole ∈ Lexicon.whole,
    (toString i).toList = sign ++ whole ∧ integerValue sign whole = i := by
  refine ⟨_, ?_, _, Lexicon.toDigits_mem_whole i.natAbs, toList_toString_int i, ?_⟩
  · rw [Lexicon.mem_sign]
    by_cases hi : i < 0
    · exact .inr ⟨'-', rfl, by simp [hi]⟩
    · exact .inl (by simp [hi])
  · rw [integerValue, Nat.ofDigitChars_ten_toDigits]
    by_cases hi : i < 0
    · rw [if_pos (by simp [hi])]
      omega
    · rw [if_neg (by simp [hi])]
      omega

theorem denotesInteger_toString (i : ℤ) : DenotesInteger (toString i).toList i := by
  obtain ⟨sign, hsign, whole, hwhole, htext, hvalue⟩ := exists_toList_toString_int i
  exact ⟨sign, hsign, whole, Lexicon.mem_digits_of_mem_whole hwhole, htext, hvalue⟩

/-! ### Reals -/

namespace DenotesDecimal

variable {cs : List Char} {negative : Bool} {q : ℚ}

theorem read_eq (h : DenotesDecimal cs negative q) :
    (read cs).negative = negative ∧ (read cs).value = q := by
  obtain ⟨sign, hsign, whole, hwhole, decimals, -, rfl, rfl, rfl⟩ := h
  rw [(unsigned_append hsign hwhole _).2,
    readDigits_point (Lexicon.isDigit_of_mem_digits hwhole), decimalValue_eq]
  exact ⟨rfl, rfl⟩

theorem real?_eq (h : DenotesDecimal cs negative q) : real? cs = (read cs).binary32? := by
  obtain ⟨sign, hsign, whole, hwhole, decimals, hdecimals, rfl, -⟩ := h
  have hall := Lexicon.isDigit_of_mem_digits hwhole
  have htake : (whole ++ '.' :: decimals).takeWhile Char.isDigit = whole := by
    rw [List.takeWhile_append_of_pos hall, List.takeWhile_cons_of_neg (by decide),
      List.append_nil]
  have hdrop : (whole ++ '.' :: decimals).dropWhile Char.isDigit = '.' :: decimals := by
    rw [List.dropWhile_append_of_pos hall, List.dropWhile_cons_of_neg (by decide)]
  simp only [real?, (unsigned_append hsign hwhole _).1, htake, hdrop]
  rw [if_pos]
  rw [areDigits_iff.2 hwhole, List.all_eq_true.2 hdecimals]
  rfl

/-- The number nearest to what the text denotes is what it is read as. -/
theorem real?_eq_some_iff (h : DenotesDecimal cs negative q) {x : Binary32} :
    real? cs = some x ↔ x.IsNearest negative q := by
  rw [h.real?_eq, binary32?_eq_some_iff, h.read_eq.1, h.read_eq.2]

/-- The number is small enough to be read at all. -/
theorem exists_real?_iff (h : DenotesDecimal cs negative q) :
    (∃ x, real? cs = some x) ↔ |q| < 2 ^ 128 - 2 ^ 103 := by
  rw [h.real?_eq, exists_binary32?_iff, h.read_eq.2]

end DenotesDecimal

theorem Numeral.exists_denotesDecimal_of_real? {cs : List Char} {x : Binary32}
    (h : real? cs = some x) : ∃ negative q, DenotesDecimal cs negative q := by
  unfold real? at h
  split at h
  · next decimals hdrop =>
    split at h
    · next hdigits =>
      rw [Bool.and_eq_true] at hdigits
      obtain ⟨sign, hsign, hcs⟩ := exists_sign_append cs
      rw [← List.takeWhile_append_dropWhile (p := Char.isDigit) (l := unsigned cs), hdrop] at hcs
      exact ⟨_, _, sign, hsign, _, areDigits_iff.1 hdigits.1, decimals,
        List.all_eq_true.1 hdigits.2, hcs, rfl, rfl⟩
    · cases h
  · cases h

/-- **A real is read as the nearest number**, and nothing else is read as one. -/
theorem Numeral.real?_eq_some_iff {cs : List Char} {x : Binary32} : real? cs = some x ↔
    ∃ negative q, DenotesDecimal cs negative q ∧ x.IsNearest negative q := by
  constructor
  · intro h
    obtain ⟨negative, q, hq⟩ := exists_denotesDecimal_of_real? h
    exact ⟨negative, q, hq, hq.real?_eq_some_iff.1 h⟩
  · rintro ⟨negative, q, hq, hx⟩
    exact hq.real?_eq_some_iff.2 hx

/-! ### Six places -/

namespace Binary32

/-- The text writes the number with six places: a minus sign if its sign is set, a whole part, a
point and six digits. Its value is the nearest one with six places, and the even one of two. -/
def HasSixPlaces (x : Binary32) (w : List Char) : Prop :=
  ∃ sign whole decimals, w = sign ++ (whole ++ '.' :: decimals) ∧
    sign = (if x.negative then ['-'] else []) ∧ whole ∈ Lexicon.whole ∧ decimals.length = 6 ∧
    (∀ c ∈ decimals, c.isDigit = true) ∧
    RoundsTo (multiples (1 / 10 ^ 6)) x.value (decimalValue sign whole decimals)
      (Even (Nat.ofDigitChars 10 (whole ++ decimals) 0))

/-- The digits of a finite number are those of its millionths. -/
theorem exists_toList_sixPlaces {x : Binary32} (h : x.isFinite = true) :
    ∃ sign ∈ Lexicon.sign, ∃ whole ∈ Lexicon.whole, ∃ decimals,
      x.sixPlaces.toList = sign ++ (whole ++ '.' :: decimals) ∧
      sign = (if x.negative then ['-'] else []) ∧ x.negative = decide (sign = ['-']) ∧
      decimals.length = 6 ∧ (∀ c ∈ decimals, c.isDigit = true) ∧
      Nat.ofDigitChars 10 (whole ++ decimals) 0 = x.millionths := by
  obtain ⟨ds, hds, hdigit, hlen, hvalue⟩ := exists_toList_decimalOfMillionths x.millionths
  refine ⟨_, ?_, _, Lexicon.toDigits_mem_whole _, ds, by rw [toList_sixPlaces h, hds], rfl, ?_,
    hlen, hdigit, hvalue⟩
  · rw [Lexicon.mem_sign]
    cases x.negative with
    | true => exact .inr ⟨'-', rfl, rfl⟩
    | false => exact .inl rfl
  · cases x.negative <;> rfl

/-- What is written denotes the millionths of the number. -/
theorem denotesDecimal_sixPlaces {x : Binary32} (h : x.isFinite = true) :
    DenotesDecimal x.sixPlaces.toList x.negative (signed x.negative (x.millionths / 10 ^ 6)) := by
  obtain ⟨sign, hsign, whole, hwhole, decimals, htext, -, hnegative, hlen, hdigit, hvalue⟩ :=
    exists_toList_sixPlaces h
  refine ⟨sign, hsign, whole, Lexicon.mem_digits_of_mem_whole hwhole, decimals, hdigit, htext,
    hnegative, ?_⟩
  rw [decimalValue_eq, ← hnegative, hvalue, hlen]

/-- **A finite number is written to the nearest millionth.** -/
theorem hasSixPlaces_sixPlaces {x : Binary32} (h : x.isFinite = true) :
    x.HasSixPlaces x.sixPlaces.toList := by
  obtain ⟨sign, -, whole, hwhole, decimals, htext, hsign, hnegative, hlen, hdigit, hvalue⟩ :=
    exists_toList_sixPlaces h
  refine ⟨sign, whole, decimals, htext, hsign, hwhole, hlen, hdigit, ?_⟩
  rw [decimalValue_eq, ← hnegative, hvalue, hlen]
  exact x.roundsTo_millionths

/-- What is read back is the number nearest to what was written. -/
theorem isNearest_reread {x : Binary32} (h : x.isFinite = true) :
    x.reread.IsNearest x.negative (signed x.negative (x.millionths / 10 ^ 6)) := by
  have hread := Numeral.binary32?_eq_some_iff.1 (binary32?_read_sixPlaces h)
  rwa [read_sixPlaces h] at hread

theorem real?_sixPlaces {x : Binary32} (h : x.isFinite = true) :
    Numeral.real? x.sixPlaces.toList = some x.reread :=
  (denotesDecimal_sixPlaces h).real?_eq_some_iff.2 (isNearest_reread h)

end Binary32

end SqlScript
