import Mathlib.Data.List.TakeWhile
import SqlScript.Numeral

/-!
# Decimal digits

The digits that a natural number is written with, and what `Numeral.read` makes of digits. A number
is written without leading zeros (`eq_zero_of_toDigits_eq_cons`). A numeral is read digit by digit,
with a point (`Numeral.readDigits_point`) or without one (`Numeral.readDigits_whole`).
-/

namespace SqlScript

theorem isDigit_of_mem_toDigits {n : Nat} {c : Char} (h : c ∈ Nat.toDigits 10 n) :
    c.isDigit = true :=
  Nat.isDigit_of_mem_toDigits (by decide) (by decide) h

theorem exists_toDigits_eq_cons (n : Nat) :
    ∃ d ds, Nat.toDigits 10 n = d :: ds ∧ d.isDigit = true := by
  obtain ⟨d, ds, hd⟩ : ∃ d ds, Nat.toDigits 10 n = d :: ds :=
    List.exists_cons_of_ne_nil Nat.toDigits_ne_nil
  exact ⟨d, ds, hd, isDigit_of_mem_toDigits (hd ▸ List.mem_cons_self)⟩

theorem ne_of_isDigit {c d : Char} (hc : c.isDigit = true) (hd : d.isDigit = false) : c ≠ d := by
  rintro rfl
  rw [hc] at hd
  cases hd

/-- Only zero is written with a zero in front. -/
theorem eq_zero_of_toDigits_eq_cons {n : Nat} {cs : List Char}
    (h : Nat.toDigits 10 n = '0' :: cs) : n = 0 := by
  have hdigit : ∀ m < 10, Nat.digitChar m = '0' → m = 0 := by decide
  induction n using Nat.strongRecOn generalizing cs with
  | ind n ih =>
    rcases Nat.lt_or_ge n 10 with hn | hn
    · rw [Nat.toDigits_of_lt_base hn] at h
      exact hdigit n hn (List.cons.inj h).1
    · obtain ⟨d, ds, hd, -⟩ := exists_toDigits_eq_cons (n / 10)
      rw [Nat.toDigits_of_base_le (by decide) hn, hd] at h
      obtain rfl := (List.cons.inj h).1
      have := ih (n / 10) (by omega) hd
      omega

/-- An integer is written with a minus sign if it is negative, and the digits of its magnitude. -/
theorem toList_toString_int (i : Int) : (toString i).toList =
    (if decide (i < 0) then ['-'] else []) ++ Nat.toDigits 10 i.natAbs := by
  rw [Int.toString_eq_repr, Int.repr_eq_if]
  by_cases hi : 0 ≤ i
  · have hn : i.toNat = i.natAbs := by omega
    simp [hi, hn, Nat.toList_repr]
  · have hn : (-i).toNat = i.natAbs := by omega
    simp [hi, hn, Int.not_le.1 hi, Nat.toList_repr]

namespace Numeral

theorem ne_point {cs : List Char} (h : ∀ c ∈ cs, c.isDigit = true) :
    ∀ c ∈ cs, decide (c ≠ '.') = true := fun c hc =>
  decide_eq_true (ne_of_isDigit (h c hc) (by decide))

/-- Digits alone have no places behind a point. -/
theorem readDigits_whole {digits : List Char} (h : ∀ c ∈ digits, c.isDigit = true)
    (negative : Bool) :
    readDigits negative digits = ⟨negative, Nat.ofDigitChars 10 digits 0, 0⟩ := by
  have htake : digits.takeWhile (· ≠ '.') = digits := List.takeWhile_eq_self_iff.2 (ne_point h)
  have hdrop : digits.dropWhile (· ≠ '.') = [] := List.dropWhile_eq_nil_iff.2 (ne_point h)
  simp only [readDigits, htake, hdrop, List.drop_nil, List.append_nil, List.length_nil]

/-- All the digits make up the coefficient, and those behind the point are the places. -/
theorem readDigits_point {whole : List Char} (h : ∀ c ∈ whole, c.isDigit = true) (negative : Bool)
    (decimals : List Char) : readDigits negative (whole ++ '.' :: decimals) =
      ⟨negative, Nat.ofDigitChars 10 (whole ++ decimals) 0, decimals.length⟩ := by
  simp only [readDigits, List.takeWhile_append_of_pos (ne_point h),
    List.dropWhile_append_of_pos (ne_point h)]
  simp

/-- A minus sign in front of digits is read as the sign. -/
theorem read_sign_append {d : Char} (hd : d.isDigit = true) (ds : List Char) (negative : Bool) :
    read ((if negative then ['-'] else []) ++ d :: ds) = readDigits negative (d :: ds) := by
  cases negative with
  | true => rfl
  | false =>
    rw [if_neg (by decide), List.nil_append, read]
    · rintro cs hcs
      exact ne_of_isDigit hd (by decide) (List.cons.inj hcs).1
    · rintro cs hcs
      exact ne_of_isDigit hd (by decide) (List.cons.inj hcs).1

end Numeral

end SqlScript
