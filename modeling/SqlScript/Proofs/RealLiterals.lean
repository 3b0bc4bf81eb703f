import SqlScript.Proofs.Derivation

/-!
# Reading real literals

The token of a real literal is a value exactly if the magnitude of what it denotes is less than
`2 ^ 128 - 2 ^ 103`. The value is then the nearest single-precision number, and otherwise the token
is reported and stays in place (`run_value_real`).
-/

namespace SqlScript

open TokenSource Grammar

variable {σ : Type} [TokenSource σ]

/-- A literal has a minus sign if it starts with one. -/
theorem Lexicon.eq_minus_iff_head? {sign digits : List Char} (hsign : sign ∈ Lexicon.sign)
    (hdigits : digits ∈ Lexicon.digits) (r : List Char) :
    sign = ['-'] ↔ (sign ++ (digits ++ r)).head? = some '-' := by
  rcases mem_sign.1 hsign with rfl | ⟨c, hc, rfl⟩
  · obtain ⟨d, ds, rfl, hd, -⟩ := mem_digits.1 hdigits
    have hne : d ≠ '-' := ne_of_isDigit hd (by decide)
    simp [hne]
  · simp

/-- A value is the next token, which is taken, or an error there, and then it is left in place. -/
theorem Grammar.run_value (s : σ) : value.run s =
    match Value.ofToken (peek s).1 with
    | .ok v => (.ok v, (take s).2)
    | .error x => (.error ⟨x, (peek s).1⟩, (peek s).2) := by
  rw [← take_peek s, value, Rule.token]
  dsimp only
  cases Value.ofToken (peek s).1 <;> rfl

/-- **Real literals are rounded once and correctly.** Let the next token be a real literal that
writes `x`: a sign or none, digits, a point and perhaps more digits, as many as there may be. If `x`
is less than `2 ^ 128 - 2 ^ 103` away from zero, the token is taken, and its value is the finite
number nearest to `x`, the even one of two, with its sign set exactly if the text starts with a
minus sign. Otherwise the rule reports that token and leaves it in place. -/
theorem run_value_real (s : σ) {sign whole decimals : List Char} (hsign : sign ∈ Lexicon.sign)
    (hwhole : whole ∈ Lexicon.digits) (hdecimals : ∀ c ∈ decimals, c.isDigit = true)
    (hkind : (peek s).1.kind = .literal .real)
    (htext : (peek s).1.text.toList = sign ++ (whole ++ '.' :: decimals)) :
    (|decimalValue sign whole decimals| < 2 ^ 128 - 2 ^ 103 →
      ∃ v : Binary32, value.run s = (.ok (.real v), (take s).2) ∧ v.isFinite = true ∧
        RoundsTo Binary32.finiteValues (decimalValue sign whole decimals) v.value
          (Even v.pattern) ∧
        (v.negative = true ↔ (peek s).1.text.toList.head? = some '-')) ∧
    (2 ^ 128 - 2 ^ 103 ≤ |decimalValue sign whole decimals| →
      ∃ e : SyntaxError, value.run s = (.error e, (peek s).2) ∧ take (peek s).2 = take s ∧
        e.token = (peek s).1 ∧ e.diagnostic = ⟨"Real in 32-bit range", .literal .real,
          (peek s).1.text, (peek s).1.location⟩) := by
  have hdenotes : DenotesDecimal (peek s).1.text.toList (sign = ['-'])
      (decimalValue sign whole decimals) :=
    ⟨sign, hsign, whole, hwhole, decimals, hdecimals, htext, rfl, rfl⟩
  rw [← hdenotes.exists_real?_iff, run_value, Value.ofToken_of_real hkind]
  constructor
  · rintro ⟨v, hv⟩
    obtain ⟨hfinite, hnegative, hround, -⟩ := hdenotes.real?_eq_some_iff.1 hv
    refine ⟨v, by rw [hv]; rfl, hfinite, hround, ?_⟩
    rw [hnegative, htext, decide_eq_true_iff, Lexicon.eq_minus_iff_head? hsign hwhole]
  · intro hlarge
    have hnone : Numeral.real? (peek s).1.text.toList = none :=
      Option.eq_none_iff_forall_ne_some.2 fun v hv =>
        absurd (hdenotes.exists_real?_iff.1 ⟨v, hv⟩) (not_lt.2 hlarge)
    rw [hnone, ← hkind]
    exact ⟨⟨.realInRange, _⟩, rfl, take_peek s, rfl, rfl⟩

/-- The last tenth decides between the largest finite number and an error. -/
theorem run_value_real_threshold :
    (∃ v : Binary32,
      value.run (⟨[⟨.literal .real, "-340282356779733661637539395458142568447.9", .start⟩],
          .start⟩ : Tape) = (.ok (.real v), ⟨[], .start⟩) ∧
        v.isFinite = true ∧ v.negative = true) ∧
    ∃ e : SyntaxError,
      value.run (⟨[⟨.literal .real, "+340282356779733661637539395458142568448.", .start⟩],
          .start⟩ : Tape) =
        (.error e, ⟨[⟨.literal .real, "+340282356779733661637539395458142568448.", .start⟩],
          .start⟩) ∧
      e.message = "Expected Real in 32-bit range, " ++
        "got Real '+340282356779733661637539395458142568448.' 1:1" := by
  have hbelow := @run_value_real Tape _
    ⟨[⟨.literal .real, "-340282356779733661637539395458142568447.9", .start⟩], .start⟩
    ['-'] "340282356779733661637539395458142568447".toList ['9']
    (Lexicon.mem_sign.2 (.inr ⟨'-', rfl, rfl⟩)) (Numeral.areDigits_iff.1 (by decide +kernel))
    (List.all_eq_true.1 (by decide)) rfl (by decide +kernel)
  have habove := @run_value_real Tape _
    ⟨[⟨.literal .real, "+340282356779733661637539395458142568448.", .start⟩], .start⟩
    ['+'] "340282356779733661637539395458142568448".toList []
    (Lexicon.mem_sign.2 (.inr ⟨'+', rfl, rfl⟩)) (Numeral.areDigits_iff.1 (by decide +kernel))
    (by simp) rfl (by decide +kernel)
  have hdigits : Nat.ofDigitChars 10 "340282356779733661637539395458142568447".toList 0 =
        2 ^ 128 - 2 ^ 103 - 1 ∧
      Nat.ofDigitChars 10 "340282356779733661637539395458142568448".toList 0 =
        2 ^ 128 - 2 ^ 103 ∧ Nat.ofDigitChars 10 ['9'] 0 = 9 ∧ Nat.ofDigitChars 10 [] 0 = 0 := by
    decide +kernel
  obtain ⟨hlow, hhigh, hnine, hnil⟩ := hdigits
  rw [decimalValue, abs_signed, hlow, hnine] at hbelow
  rw [decimalValue, abs_signed, hhigh, hnil] at habove
  constructor
  · obtain ⟨v, hrun, hfin, -, hneg⟩ := hbelow.1 (by norm_num)
    exact ⟨v, hrun, hfin, hneg.2 (by decide +kernel)⟩
  · obtain ⟨e, hrun, -, -, hdiagnostic⟩ := habove.2 (by norm_num)
    refine ⟨e, hrun, ?_⟩
    rw [SyntaxError.message, hdiagnostic]
    decide +kernel

end SqlScript
