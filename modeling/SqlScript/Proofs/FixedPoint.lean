import SqlScript.Proofs.RealLiterals
import SqlScript.Proofs.Respacing
import SqlScript.Proofs.Spelling

/-!
# A real that is written and read back

A finite real is written as one token (`Value.standsAlone_word`), which is read as another finite
real, and that one is written with the same characters. The two are less than a millionth apart
(`Binary32.abs_value_reread_sub_lt`): each is at most half a millionth away from what is written,
and exactly a millionth is no difference between single-precision numbers, because `5` divides no
power of two.
-/

namespace SqlScript

open Lexeme

/-! ## One token -/

/-- A text that is one token in front of a delimiter is one by itself. -/
theorem Token.standsAlone_of_lexes {t : Token} (h : Lexes t.kind t.text.toList) :
    t.StandsAlone := by
  obtain ⟨c, r, hcr, hc, hfirst⟩ := h
  have hspace := hfirst [' '] (delimited_cons (by decide) [])
  have hrest : (first c (r ++ [' '])).rest = [] ++ [' '] := by rw [hspace, List.nil_append]
  have hchars : (first c (r ++ [' '])).chars ++ [] = c :: r := by
    rw [hspace, List.append_nil, hcr]
  exact ⟨c, r, hcr, hc, by rw [first_of_append hrest hchars, hspace, hcr]⟩

theorem Value.standsAlone_word {v : Value} (h : v.WellFormed) : v.word.StandsAlone :=
  Token.standsAlone_of_lexes (lexes h)

/-- The first token of a text is the one that is shown first. -/
theorem Scanner.fst_peek_of_drain_eq_cons {text : String} {t : Token} {ts : List Token}
    (h : (ofString text).drain.1 = t :: ts) : (ofString text).peek.1 = t := by
  rw [drain_eq_tokens, tokens] at h
  split at h <;> exact (List.cons.inj h).1

/-! ## How far the numbers are apart -/

theorem signed_sub_signed (negative : Bool) (a b : ℚ) :
    signed negative a - signed negative b = signed negative (a - b) := by
  unfold signed
  split <;> ring

namespace Binary32

theorem abs_value (x : Binary32) : |x.value| = x.units / 2 ^ 149 := by
  rw [value, abs_signed, abs_of_nonneg x.magnitude_nonneg, magnitude]

theorem exists_value_eq (x : Binary32) : ∃ k : ℤ, x.value = k / 2 ^ 149 := by
  unfold value signed
  split
  · exact ⟨-x.units, by rw [magnitude]; push_cast; ring⟩
  · exact ⟨x.units, by rw [magnitude, Int.cast_natCast]⟩

/-- No two numbers are exactly a millionth apart. -/
theorem abs_value_sub_ne (x y : Binary32) : |x.value - y.value| ≠ 1 / 10 ^ 6 := by
  obtain ⟨j, hj⟩ := x.exists_value_eq
  obtain ⟨k, hk⟩ := y.exists_value_eq
  intro h
  rw [hj, hk, ← sub_div, abs_div, abs_of_pos (by positivity : (0 : ℚ) < 2 ^ 149),
    div_eq_div_iff (by positivity) (by positivity), one_mul] at h
  have hint : |j - k| * 10 ^ 6 = 2 ^ 149 := by exact_mod_cast h
  -- no multiple of `10 ^ 6` is a power of two
  omega

/-- What is written is at most half a millionth away. -/
theorem abs_value_sub_millionths_le (x : Binary32) :
    |x.value - signed x.negative (x.millionths / 10 ^ 6)| ≤ 1 / 2 / 10 ^ 6 := by
  have hround := abs_div_sub_roundDiv_le (x.units * 1000000) (Nat.two_pow_pos 149)
  rw [← Nat.one_shiftLeft, ← millionths, Nat.one_shiftLeft] at hround
  have hscale : x.magnitude - x.millionths / 10 ^ 6 =
      ((x.units * 1000000 : ℕ) / (2 ^ 149 : ℕ) - x.millionths) / 10 ^ 6 := by
    rw [magnitude]
    push_cast
    ring
  rw [value, signed_sub_signed, abs_signed, hscale, abs_div,
    abs_of_pos (by positivity : (0 : ℚ) < 10 ^ 6)]
  exact div_le_div_of_nonneg_right hround (by positivity)

/-- **The number that is read back is less than a millionth away.** -/
theorem abs_value_reread_sub_lt {x : Binary32} (h : x.isFinite = true) :
    |x.reread.value - x.value| < 1 / 10 ^ 6 := by
  have hwritten := x.abs_value_sub_millionths_le
  have hread := (isNearest_reread h).roundsTo.abs_sub_le x.value ⟨x, h, rfl⟩
  generalize signed x.negative (x.millionths / 10 ^ 6) = d at hwritten hread
  refine lt_of_le_of_ne ?_ (abs_value_sub_ne _ _)
  calc |x.reread.value - x.value| ≤ |x.reread.value - d| + |d - x.value| := abs_sub_le _ _ _
    _ = |d - x.reread.value| + |x.value - d| := by
      rw [abs_sub_comm d x.value, abs_sub_comm d x.reread.value]
    _ ≤ |d - x.value| + |x.value - d| := add_le_add_left hread _
    _ ≤ 1 / 10 ^ 6 := by
      rw [abs_sub_comm d]
      linarith

end Binary32

/-! ## Writing and reading -/

open TokenSource

theorem Grammar.run_value_sixPlaces {σ : Type} [TokenSource σ] {x : Binary32}
    (h : x.isFinite = true) {s : σ} (hkind : (peek s).1.kind = .literal .real)
    (htext : (peek s).1.text = x.sixPlaces) :
    value.run s = (.ok (.real x.reread), (take s).2) := by
  rw [run_value, Value.ofToken_of_real hkind, htext, Binary32.real?_sixPlaces h]
  rfl

/-- **Writing a real and reading it back settles at once.** A finite real is written as one token:
a real literal with a minus sign exactly if its sign is set, no superfluous zeros in front, and six
places, which is the nearest number with six places. That text is read as a value again and never
as an error, by itself and wherever its token comes next. The value is written with the same
characters, it is less than a millionth away, and it is the same number if that is at least `16`
away from zero. -/
theorem exists_reread_fixedPoint {v : Binary32} (h : v.isFinite = true) :
    (Scanner.ofString (Value.real v).render).drain.1 =
        [⟨.literal .real, (Value.real v).render, .start⟩,
          .endOfInput (Location.start.after (Value.real v).render.toList)] ∧
      v.HasSixPlaces (Value.real v).render.toList ∧
      ∃ w : Binary32, w.isFinite = true ∧
        (Grammar.value.run (Scanner.ofString (Value.real v).render)).1 = .ok (.real w) ∧
        (∀ {σ : Type} [TokenSource σ] (s : σ), (peek s).1.kind = .literal .real →
          (peek s).1.text = (Value.real v).render →
            Grammar.value.run s = (.ok (.real w), (take s).2)) ∧
        (Value.real w).render = (Value.real v).render ∧
        |w.value - v.value| < 1 / 10 ^ 6 ∧ (16 ≤ |v.value| → w = v) := by
  have hdrain := (Value.standsAlone_word (v := .real v) h).drain_eq
  have hpeek : (peek (Scanner.ofString v.sixPlaces)).1 = ⟨.literal .real, v.sixPlaces, .start⟩ :=
    Scanner.fst_peek_of_drain_eq_cons hdrain
  have hrun := Grammar.run_value_sixPlaces h (congrArg Token.kind hpeek)
    (congrArg Token.text hpeek)
  refine ⟨hdrain, Binary32.hasSixPlaces_sixPlaces h, v.reread, v.isFinite_reread.trans h,
    congrArg Prod.fst hrun, fun s => Grammar.run_value_sixPlaces h, v.sixPlaces_reread,
    Binary32.abs_value_reread_sub_lt h, fun hlarge => ?_⟩
  rw [Binary32.abs_value, le_div_iff₀ (by positivity)] at hlarge
  exact Binary32.reread_eq_self h (by exact_mod_cast hlarge)

/-- The negative number nearest to zero is written as a negative zero, and read back as one. -/
theorem exists_reread_fixedPoint_minus_zero :
    (Scanner.ofString "-0.000000").drain.1 =
        [⟨.literal .real, "-0.000000", .start⟩, .endOfInput ⟨9, 1, 10⟩] ∧
      ∃ w : Binary32, w.isFinite = true ∧
        (Grammar.value.run (Scanner.ofString "-0.000000")).1 = .ok (.real w) ∧
        (Value.real w).render = "-0.000000" ∧
        |w.value - (⟨true, 1, by decide⟩ : Binary32).value| < 1 / 10 ^ 6 := by
  have htext : (Value.real ⟨true, 1, by decide⟩).render = "-0.000000" := by decide +kernel
  obtain ⟨hdrain, -, w, hw, hrun, -, hrender, hnear, -⟩ :=
    exists_reread_fixedPoint (v := ⟨true, 1, by decide⟩) rfl
  rw [htext] at hdrain hrun hrender
  have hafter : Location.start.after "-0.000000".toList = ⟨9, 1, 10⟩ := by decide +kernel
  rw [hafter] at hdrain
  exact ⟨hdrain, w, hw, hrun, hrender, hnear⟩

end SqlScript
