import SqlScript.Proofs.Lexicon
import SqlScript.Proofs.SixPlaces

/-!
# Rounding to the nearest value

`RoundsTo A q a even` says that `a` is the member of `A` nearest to `q`, and that another member is
as near only if `even` holds. Both roundings between decimal and binary notation are of this sort,
with their signs: a numeral is read as the finite single-precision number nearest to its value
(`Binary32.roundsTo_of_nearest?`), and a finite number is written as the nearest whole number of
millionths (`Binary32.roundsTo_millionths`).

The numbers of one binade are the multiples of one distance, so rounding in a binade is rounding a
quotient to an integer. The numbers further down are closer together, but they all lie below the
smallest number of the binade, which is nearer.

A quotient is rounded to a finite number if it is below `2 ^ 128 - 2 ^ 103`
(`Binary32.nearestPattern_lt_infinity_iff`). That is the middle between the largest finite number
and `2 ^ 128`, and a tie there goes to `2 ^ 128`, whose pattern is even. With this bound and the
sign, rounding is a relation (`Binary32.IsNearest`) that no two numbers satisfy, since between two
even patterns there is one that is nearer; and reading is what computes it
(`Binary32.nearest?_eq_some_iff`).
-/

namespace SqlScript

/-! ## The nearest member of a set -/

/-- `a` is the member of `A` nearest to `q`. Another member is as near only if `even` holds: of the
two, `a` is the one that is called even. -/
structure RoundsTo (A : Set ℚ) (q a : ℚ) (even : Prop) : Prop where
  mem : a ∈ A
  abs_sub_le : ∀ b ∈ A, |q - a| ≤ |q - b|
  even_of_tie : ∀ b ∈ A, |q - b| = |q - a| → b = a ∨ even

/-- The number with its sign changed if `negative`. -/
def signed (negative : Bool) (q : ℚ) : ℚ := if negative then -q else q

theorem abs_signed (negative : Bool) (q : ℚ) : |signed negative q| = |q| := by
  unfold signed
  split
  · exact abs_neg q
  · rfl

/-- Between two numbers that are as near, every number is nearer. -/
theorem abs_sub_lt_of_between {q a b c : ℚ} (h : |q - a| = |q - b|) (hac : a < c) (hcb : c < b) :
    |q - c| < |q - a| := by
  rw [abs_lt]
  constructor
  · calc -|q - a| = -|q - b| := by rw [h]
      _ ≤ q - b := neg_abs_le _
      _ < q - c := sub_lt_sub_left hcb q
  · exact (sub_lt_sub_left hac q).trans_le (le_abs_self _)

/-- The same of two numbers with the same sign and the magnitude of one between them. -/
theorem abs_sub_signed_lt_of_between {q a b c : ℚ} {negative : Bool}
    (h : |q - signed negative a| = |q - signed negative b|) (hac : a < c) (hcb : c < b) :
    |q - signed negative c| < |q - signed negative a| := by
  cases negative with
  | false => exact abs_sub_lt_of_between h hac hcb
  | true => exact h ▸ abs_sub_lt_of_between h.symm (neg_lt_neg hcb) (neg_lt_neg hac)

namespace RoundsTo

variable {A : Set ℚ} {q a : ℚ} {even : Prop}

/-- More members to choose from change nothing if each of them lies below a nearer one. -/
theorem of_lt {B : Set ℚ} (h : RoundsTo A q a even) (ha : a ∈ B)
    (hB : ∀ b ∈ B, b ∈ A ∨ ∃ c ∈ A, b < c ∧ c ≤ q) : RoundsTo B q a even := by
  have hlt : ∀ {b c}, c ∈ A → b < c → c ≤ q → |q - a| < |q - b| := fun {b c} hc hbc hcq =>
    calc |q - a| ≤ |q - c| := h.abs_sub_le c hc
      _ = q - c := abs_of_nonneg (sub_nonneg.2 hcq)
      _ < q - b := sub_lt_sub_left hbc q
      _ ≤ |q - b| := le_abs_self _
  refine ⟨ha, fun b hb => ?_, fun b hb ht => ?_⟩
  · rcases hB b hb with hb' | ⟨c, hc, hbc, hcq⟩
    · exact h.abs_sub_le b hb'
    · exact (hlt hc hbc hcq).le
  · rcases hB b hb with hb' | ⟨c, hc, hbc, hcq⟩
    · exact h.even_of_tie b hb' ht
    · exact absurd ht (hlt hc hbc hcq).ne'

theorem neg (h : RoundsTo A q a even) (hA : ∀ b ∈ A, -b ∈ A) : RoundsTo A (-q) (-a) even := by
  have habs : ∀ b, |-q - b| = |q - -b| := fun b => by rw [← abs_neg]; ring_nf
  refine ⟨hA a h.mem, fun b hb => ?_, fun b hb ht => ?_⟩
  · rw [habs, habs, neg_neg]
    exact h.abs_sub_le _ (hA b hb)
  · rw [habs, habs, neg_neg] at ht
    exact (h.even_of_tie _ (hA b hb) ht).imp_left neg_eq_iff_eq_neg.1

/-- In a set with both signs it is enough to compare magnitudes. -/
theorem with_sign (h : RoundsTo {b ∈ A | 0 ≤ b} q a even) (h0 : (0 : ℚ) ∈ A)
    (hA : ∀ b ∈ A, -b ∈ A) (hq : 0 ≤ q) (negative : Bool) :
    RoundsTo A (signed negative q) (signed negative a) even := by
  have h' : RoundsTo A q a even := h.of_lt h.mem.1 fun b hb => by
    rcases lt_or_ge b 0 with hlt | hge
    · exact .inr ⟨0, ⟨h0, le_rfl⟩, hlt, hq⟩
    · exact .inl ⟨hb, hge⟩
  cases negative with
  | false => exact h'
  | true => exact h'.neg hA

end RoundsTo

/-- The whole multiples of a distance. -/
def multiples (u : ℚ) : Set ℚ := {v | ∃ k : ℤ, v = k * u}

/-- The multiple at most half a distance away is the nearest one. -/
theorem roundsTo_multiples {u r : ℚ} (hu : 0 < u) {m : ℤ} (h : |r - m| ≤ 1 / 2)
    (he : |r - m| = 1 / 2 → Even m) : RoundsTo (multiples u) (r * u) (m * u) (Even m) := by
  have hscale : ∀ k : ℤ, |r * u - k * u| = |r - k| * u := fun k => by
    rw [← sub_mul, abs_mul, abs_of_pos hu]
  have hhalf : ∀ k : ℤ, k ≠ m → 1 / 2 ≤ |r - k| := by
    intro k hk
    have h1 : (1 : ℚ) ≤ |(k : ℚ) - m| := by exact_mod_cast Int.one_le_abs (sub_ne_zero.2 hk)
    have h2 : |(k : ℚ) - m| ≤ |r - m| + |r - k| := by
      rw [show (k : ℚ) - m = (r - m) - (r - k) by ring]
      exact abs_sub _ _
    linarith
  refine ⟨⟨m, rfl⟩, ?_, ?_⟩
  · rintro _ ⟨k, rfl⟩
    rw [hscale, hscale]
    refine mul_le_mul_of_nonneg_right ?_ hu.le
    rcases eq_or_ne k m with rfl | hk
    · exact le_rfl
    · exact h.trans (hhalf k hk)
  · rintro _ ⟨k, rfl⟩ ht
    rw [hscale, hscale, mul_left_inj' hu.ne'] at ht
    rcases eq_or_ne k m with rfl | hk
    · exact .inl rfl
    · exact .inr (he (le_antisymm h (ht ▸ hhalf k hk)))

theorem abs_div_sub_roundDiv_le (n : ℕ) {d : ℕ} (hd : 0 < d) :
    |(n / d : ℚ) - roundDiv n d| ≤ 1 / 2 := by
  have hd' : (0 : ℚ) < d := by exact_mod_cast hd
  have hu : (2 * (roundDiv n d * d) : ℚ) ≤ 2 * n + d := by exact_mod_cast roundDiv_mul_le n d
  have hl : (2 * n : ℚ) ≤ 2 * (roundDiv n d * d) + d := by exact_mod_cast le_roundDiv_mul n hd
  rw [abs_le, le_sub_iff_add_le, sub_le_iff_le_add, le_div_iff₀ hd', div_le_iff₀ hd']
  constructor <;> linarith

/-- A tie leaves a remainder of half the divisor. -/
theorem two_mul_mod_eq_of_tie {n d : ℕ} (hd : 0 < d)
    (h : 2 * n = 2 * (roundDiv n d * d) + d ∨ 2 * n + d = 2 * (roundDiv n d * d)) :
    2 * (n % d) = d := by
  have hn := Nat.div_add_mod' n d
  have hs : (n / d + 1) * d = n / d * d + d := Nat.succ_mul _ _
  have hm := Nat.mod_lt n hd
  rcases roundDiv_eq n d with ⟨hr, -⟩ | ⟨hr, -⟩ <;> rw [hr] at h <;> omega

theorem even_roundDiv {n d : ℕ} (hd : 0 < d) (h : |(n / d : ℚ) - roundDiv n d| = 1 / 2) :
    Even (roundDiv n d) := by
  have hd' : (d : ℚ) ≠ 0 := by exact_mod_cast hd.ne'
  have htie : 2 * n = 2 * (roundDiv n d * d) + d ∨ 2 * n + d = 2 * (roundDiv n d * d) := by
    rcases (abs_eq (by norm_num)).1 h with h | h
    · left
      field_simp at h
      exact_mod_cast (by linarith : (2 * n : ℚ) = 2 * (roundDiv n d * d) + d)
    · right
      field_simp at h
      exact_mod_cast (by linarith : (2 * n + d : ℚ) = 2 * (roundDiv n d * d))
  exact Nat.even_iff.2 (even_roundDiv_of_tie (two_mul_mod_eq_of_tie hd htie))

/-- A rounded quotient is the nearest one, in whatever unit. -/
theorem roundsTo_roundDiv (n : ℕ) {d : ℕ} (hd : 0 < d) {u : ℚ} (hu : 0 < u) :
    RoundsTo (multiples u) (n / d * u) (roundDiv n d * u) (Even (roundDiv n d)) := by
  have h := roundsTo_multiples hu (m := (roundDiv n d : ℤ)) (by
    simpa only [Int.cast_natCast] using abs_div_sub_roundDiv_le n hd) fun ht => by
      rw [Int.cast_natCast] at ht
      exact (Int.even_coe_nat _).2 (even_roundDiv hd ht)
  simpa only [Int.cast_natCast, Int.even_coe_nat] using h

/-- Quotients that are rounded to less than an even integer are less than half a unit below it,
and a tie is rounded to it. -/
theorem roundDiv_lt_iff {n d m : Nat} (hd : 0 < d) (hm : Even m) :
    roundDiv n d < m ↔ 2 * n + d < 2 * (m * d) := by
  constructor
  · intro h
    have hnear := le_roundDiv_mul n hd
    have hle : (roundDiv n d + 1) * d ≤ m * d := Nat.mul_le_mul_right d h
    rw [Nat.succ_mul] at hle
    by_contra hge
    -- then the quotient is in the middle, and both integers there would be even
    have htie := even_roundDiv_of_tie (two_mul_mod_eq_of_tie (n := n) hd (.inl (by omega)))
    have hone : m = roundDiv n d + 1 :=
      Nat.eq_of_mul_eq_mul_right hd (by rw [Nat.succ_mul]; omega)
    have := Nat.even_iff.1 hm
    omega
  · intro h
    have hnear := roundDiv_mul_le n d
    by_contra hge
    have hle : m * d ≤ roundDiv n d * d := Nat.mul_le_mul_right d (Nat.not_lt.1 hge)
    omega

/-- The number that a numeral writes. -/
def Numeral.value (n : Numeral) : ℚ := signed n.negative (n.coefficient / 10 ^ n.places)

namespace Binary32

/-! ## The values of the finite numbers -/

/-- The magnitude of a finite number. -/
def magnitude (x : Binary32) : ℚ := x.units / 2 ^ 149

/-- The value of a finite number. -/
def value (x : Binary32) : ℚ := signed x.negative x.magnitude

/-- The values that single precision has. -/
def finiteValues : Set ℚ := {v | ∃ y : Binary32, y.isFinite = true ∧ y.value = v}

theorem magnitude_nonneg (x : Binary32) : 0 ≤ x.magnitude := by
  rw [magnitude]
  positivity

theorem zero_mem_finiteValues : (0 : ℚ) ∈ finiteValues :=
  ⟨⟨false, 0, by decide⟩, rfl, by simp [value, magnitude, signed, units]⟩

theorem neg_mem_finiteValues {v : ℚ} (h : v ∈ finiteValues) : -v ∈ finiteValues := by
  obtain ⟨⟨s, p, hp⟩, hf, rfl⟩ := h
  refine ⟨⟨!s, p, hp⟩, hf, ?_⟩
  have hm : magnitude ⟨!s, p, hp⟩ = magnitude ⟨s, p, hp⟩ := rfl
  rw [value, value, hm]
  cases s <;> simp [signed]

theorem exists_magnitude_eq {v : ℚ} (h : v ∈ finiteValues) (hv : 0 ≤ v) :
    ∃ y : Binary32, v = y.magnitude := by
  obtain ⟨y, -, rfl⟩ := h
  refine ⟨y, ?_⟩
  have hy := y.magnitude_nonneg
  unfold value signed at hv ⊢
  split
  · next hs =>
    rw [if_pos hs] at hv
    linarith
  · rfl

theorem magnitude_mem_finiteValues {x : Binary32} (h : x.isFinite = true) :
    x.magnitude ∈ finiteValues :=
  ⟨⟨false, x.pattern, x.pattern_lt⟩, h, rfl⟩

/-! ## Reading -/

/-- A number is a multiple of the distance in the binade `e`, or it lies below that binade. -/
theorem magnitude_mem_multiples_or_lt (y : Binary32) (e : ℕ) :
    y.magnitude ∈ multiples (2 ^ e / 2 ^ 149) ∨
      (e ≠ 0 ∧ y.magnitude < (binade : ℤ) * (2 ^ e / 2 ^ 149)) := by
  obtain ⟨e', k, hp, hk, he'⟩ := exists_pattern_eq y
  have hu : y.units = k * 2 ^ e' := units_eq hp hk.le he'
  rcases Nat.lt_or_ge e' e with hlt | hge
  · refine .inr ⟨by omega, ?_⟩
    have hlow : y.units < binade * 2 ^ e :=
      calc y.units = k * 2 ^ e' := hu
        _ < 2 * binade * 2 ^ e' := Nat.mul_lt_mul_of_pos_right hk (Nat.two_pow_pos e')
        _ = binade * 2 ^ (e' + 1) := by ring
        _ ≤ binade * 2 ^ e := Nat.mul_le_mul_left _ (Nat.pow_le_pow_right (by decide) hlt)
    rw [magnitude, ← mul_div_assoc]
    refine div_lt_div_of_pos_right ?_ (by positivity)
    exact_mod_cast hlow
  · obtain ⟨j, rfl⟩ := Nat.exists_eq_add_of_le hge
    refine .inl ⟨k * 2 ^ j, ?_⟩
    rw [magnitude, hu]
    push_cast
    ring

/-- The nearest pattern stands for the nearest magnitude. -/
theorem roundsTo_magnitude {n d : ℕ} (hd : 0 < d) {x : Binary32} (hfin : x.isFinite = true)
    (hx : x.pattern = nearestPattern (n * 2 ^ 149) d) :
    RoundsTo {v ∈ finiteValues | 0 ≤ v} (n / d) x.magnitude (Even x.pattern) := by
  obtain ⟨e, he⟩ : ∃ e, shiftOf (n * 2 ^ 149) d = e := ⟨_, rfl⟩
  have hpattern := hx.trans (nearestPattern_eq _ _)
  have hunits := units_of_nearestPattern hd hx
  have hbelow := le_of_shiftOf (n := n * 2 ^ 149) hd
  rw [he] at hpattern hunits hbelow
  have hd' : (0 : ℚ) < d := by exact_mod_cast hd
  -- in the binade of the quotient the numbers are multiples of one distance
  have hgrid := roundsTo_roundDiv (n * 2 ^ 149) (Nat.mul_pos hd (Nat.two_pow_pos e))
    (u := 2 ^ e / 2 ^ 149) (by positivity)
  have hquot : ((n * 2 ^ 149 : ℕ) / (d * 2 ^ e : ℕ) * (2 ^ e / 2 ^ 149) : ℚ) = n / d := by
    rw [Nat.cast_mul, Nat.cast_mul, Nat.cast_pow, Nat.cast_pow, Nat.cast_ofNat]
    field_simp
  have hmag : x.magnitude = roundDiv (n * 2 ^ 149) (d * 2 ^ e) * (2 ^ e / 2 ^ 149) := by
    rw [magnitude, hunits, Nat.cast_mul, Nat.cast_pow, Nat.cast_ofNat, mul_div_assoc]
  have heven : Even (roundDiv (n * 2 ^ 149) (d * 2 ^ e)) ↔ Even x.pattern := by
    rw [hpattern, Nat.even_add, Nat.even_mul]
    simp [show Even binade by decide]
  rw [hquot, ← hmag, heven] at hgrid
  refine hgrid.of_lt ⟨magnitude_mem_finiteValues hfin, x.magnitude_nonneg⟩ ?_
  rintro v ⟨hv, hv0⟩
  obtain ⟨y, rfl⟩ := exists_magnitude_eq hv hv0
  refine (y.magnitude_mem_multiples_or_lt e).imp_right fun ⟨hne, hlt⟩ => ?_
  refine ⟨_, ⟨binade, rfl⟩, hlt, ?_⟩
  rw [le_div_iff₀ hd', ← mul_div_assoc, div_mul_eq_mul_div, div_le_iff₀ (by positivity)]
  calc ((binade : ℤ) : ℚ) * 2 ^ e * d = (binade * (d * 2 ^ e) : ℕ) := by push_cast; ring
    _ ≤ (n * 2 ^ 149 : ℕ) := by exact_mod_cast hbelow hne
    _ = n * 2 ^ 149 := by rw [Nat.cast_mul, Nat.cast_pow, Nat.cast_ofNat]

/-- **The number that is read is the nearest one**, and the even one of two that are. -/
theorem roundsTo_of_nearest? {s : Bool} {n d : ℕ} (hd : 0 < d) {x : Binary32}
    (h : nearest? s n d = some x) :
    RoundsTo finiteValues (signed s (n / d)) x.value (Even x.pattern) := by
  have hx : x.pattern = nearestPattern (n * 2 ^ 149) d := by
    unfold nearest? at h
    dsimp only at h
    split at h
    · rw [← Nat.shiftLeft_eq]
      exact congrArg pattern (Option.some.inj h).symm
    · exact absurd h (by simp)
  have hr := roundsTo_magnitude hd (isFinite_of_nearest? h) hx
  rw [value, negative_of_nearest? h]
  exact hr.with_sign zero_mem_finiteValues (fun _ => neg_mem_finiteValues) (by positivity) s

/-! ## Where numbers become infinite -/

/-- **The numbers from `2 ^ 128 - 2 ^ 103` on are rounded to infinity.** -/
theorem nearestPattern_lt_infinity_iff (n : Nat) {d : Nat} (hd : 0 < d) :
    nearestPattern (n * 2 ^ 149) d < infinity ↔ n < (2 ^ 128 - 2 ^ 103) * d := by
  have hlt := lt_of_shiftOf (n * 2 ^ 149) hd
  have hle := le_of_shiftOf (n := n * 2 ^ 149) hd
  rw [nearestPattern_eq, show infinity = 253 * binade + 2 * binade from rfl]
  obtain ⟨e, he⟩ : ∃ e, shiftOf (n * 2 ^ 149) d = e := ⟨_, rfl⟩
  rw [he] at hlt hle ⊢
  have hpos : 0 < d * 2 ^ e := Nat.mul_pos hd (Nat.two_pow_pos e)
  rcases Nat.lt_trichotomy e 253 with h | rfl | h
  · -- a lower binade: a finite pattern, and less than half the bound
    have hround := roundDiv_le_of_le hpos hlt.le
    have hshift : e * binade ≤ 252 * binade := Nat.mul_le_mul_right _ (by omega)
    have hpow : d * 2 ^ e ≤ d * 2 ^ 252 := Nat.mul_le_mul_left d
      (Nat.pow_le_pow_right (by decide) (by omega))
    simp only [binade] at hlt hround hshift ⊢
    omega
  · rw [Nat.add_lt_add_iff_left, roundDiv_lt_iff hpos (by decide)]
    simp only [binade]
    omega
  · -- a higher binade: the pattern of infinity or above, and twice the bound or more
    have hround := le_roundDiv_of_le hpos (hle (by omega))
    have hshift : 254 * binade ≤ e * binade := Nat.mul_le_mul_right _ h
    have hpow : d * 2 ^ 254 ≤ d * 2 ^ e := Nat.mul_le_mul_left d
      (Nat.pow_le_pow_right (by decide) h)
    have hn := hle (by omega)
    simp only [binade] at hn hround hshift ⊢
    omega

theorem exists_nearest?_iff (s : Bool) (n : ℕ) {d : ℕ} (hd : 0 < d) :
    (∃ x, nearest? s n d = some x) ↔ |signed s (n / d)| < 2 ^ 128 - 2 ^ 103 := by
  have hd' : (0 : ℚ) < d := by exact_mod_cast hd
  have hbound : ((2 ^ 128 - 2 ^ 103 : ℕ) : ℚ) = 2 ^ 128 - 2 ^ 103 := by norm_num
  have hlt : n < (2 ^ 128 - 2 ^ 103) * d ↔ |signed s (n / d)| < 2 ^ 128 - 2 ^ 103 := by
    rw [abs_signed, abs_of_nonneg (by positivity), div_lt_iff₀ hd', ← hbound]
    exact_mod_cast Iff.rfl
  rw [← hlt, ← nearestPattern_lt_infinity_iff n hd, ← Nat.shiftLeft_eq]
  simp [nearest?]

/-! ## Nearest numbers as a relation -/

/-- The magnitude grows with the pattern. -/
theorem units_lt_units {x y : Binary32} (h : x.pattern < y.pattern) : x.units < y.units := by
  obtain ⟨e, k, hp, hk, he⟩ := x.exists_pattern_eq
  obtain ⟨e', k', hp', hk', he'⟩ := y.exists_pattern_eq
  rw [units_eq hp hk.le he, units_eq hp' hk'.le he']
  rw [hp, hp'] at h
  rcases Nat.lt_trichotomy e e' with hlt | rfl | hgt
  · calc k * 2 ^ e < 2 * binade * 2 ^ e := Nat.mul_lt_mul_of_pos_right hk (Nat.two_pow_pos e)
      _ = binade * 2 ^ (e + 1) := by ring
      _ ≤ binade * 2 ^ e' := Nat.mul_le_mul_left _ (Nat.pow_le_pow_right (by decide) hlt)
      _ ≤ k' * 2 ^ e' := Nat.mul_le_mul_right _ (he'.resolve_left (by omega))
  · exact Nat.mul_lt_mul_of_pos_right (Nat.add_lt_add_iff_left.1 h) (Nat.two_pow_pos e)
  · -- the pattern of the higher binade would be the greater one
    have hbinade := he.resolve_left (by omega)
    have hshift : (e' + 1) * binade ≤ e * binade := Nat.mul_le_mul_right _ hgt
    simp only [binade] at *
    omega

theorem magnitude_lt_magnitude {x y : Binary32} (h : x.pattern < y.pattern) :
    x.magnitude < y.magnitude := by
  rw [magnitude, magnitude]
  exact div_lt_div_of_pos_right (by exact_mod_cast units_lt_units h) (by positivity)

/-- `x` is the number with the given sign that is nearest to `q`, the even one of two, and `q` is
not so large that it is rounded to infinity. -/
structure IsNearest (x : Binary32) (negative : Bool) (q : ℚ) : Prop where
  isFinite : x.isFinite = true
  negative_eq : x.negative = negative
  roundsTo : RoundsTo finiteValues q x.value (Even x.pattern)
  lt : |q| < 2 ^ 128 - 2 ^ 103

namespace IsNearest

variable {x y : Binary32} {negative : Bool} {q : ℚ}

/-- Two numbers are not both nearest if the first one has the smaller pattern. -/
theorem not_pattern_lt (hx : x.IsNearest negative q) (hy : y.IsNearest negative q) :
    ¬ x.pattern < y.pattern := by
  intro hlt
  have hdist : |q - x.value| = |q - y.value| :=
    le_antisymm (hx.roundsTo.abs_sub_le _ hy.roundsTo.mem)
      (hy.roundsTo.abs_sub_le _ hx.roundsTo.mem)
  have hne : x.value ≠ y.value := fun heq => by
    rw [value, value, hx.negative_eq, hy.negative_eq] at heq
    have habs := congrArg abs heq
    rw [abs_signed, abs_signed, abs_of_nonneg x.magnitude_nonneg,
      abs_of_nonneg y.magnitude_nonneg] at habs
    exact (magnitude_lt_magnitude hlt).ne habs
  -- both patterns are even, so there is one between them
  have hex := Nat.even_iff.1 ((hx.roundsTo.even_of_tie _ hy.roundsTo.mem hdist.symm).resolve_left
    hne.symm)
  have hey := Nat.even_iff.1 ((hy.roundsTo.even_of_tie _ hx.roundsTo.mem hdist).resolve_left hne)
  have hfin : y.pattern < infinity := of_decide_eq_true hy.isFinite
  have hbetween : x.pattern + 1 < y.pattern := by omega
  let z : Binary32 := ⟨negative, x.pattern + 1, hbetween.trans y.pattern_lt⟩
  have hz : z.isFinite = true := decide_eq_true (hbetween.trans hfin)
  have hxz : x.magnitude < z.magnitude := magnitude_lt_magnitude (Nat.lt_succ_self _)
  have hzy : z.magnitude < y.magnitude := magnitude_lt_magnitude hbetween
  have hnear : |q - x.value| ≤ |q - signed negative z.magnitude| :=
    hx.roundsTo.abs_sub_le _ ⟨z, hz, rfl⟩
  rw [value, hx.negative_eq] at hnear
  rw [value, value, hx.negative_eq, hy.negative_eq] at hdist
  exact hnear.not_gt (abs_sub_signed_lt_of_between hdist hxz hzy)

/-- **No two numbers are nearest.** -/
theorem unique (hx : x.IsNearest negative q) (hy : y.IsNearest negative q) : x = y := by
  have hpattern : x.pattern = y.pattern :=
    le_antisymm (not_lt.1 (hy.not_pattern_lt hx)) (not_lt.1 (hx.not_pattern_lt hy))
  have hnegative := hx.negative_eq.trans hy.negative_eq.symm
  obtain ⟨s, p, hp⟩ := x
  obtain ⟨s', p', hp'⟩ := y
  obtain rfl : p = p' := hpattern
  obtain rfl : s = s' := hnegative
  rfl

end IsNearest

/-- **What is read is the nearest number**, if there is one. -/
theorem nearest?_eq_some_iff {s : Bool} {n d : ℕ} (hd : 0 < d) {x : Binary32} :
    nearest? s n d = some x ↔ x.IsNearest s (signed s (n / d)) := by
  have hnearest : ∀ {y}, nearest? s n d = some y → y.IsNearest s (signed s (n / d)) := fun h =>
    ⟨isFinite_of_nearest? h, negative_of_nearest? h, roundsTo_of_nearest? hd h,
      (exists_nearest?_iff s n hd).1 ⟨_, h⟩⟩
  refine ⟨hnearest, fun h => ?_⟩
  obtain ⟨y, hy⟩ := (exists_nearest?_iff s n hd).2 h.lt
  rwa [h.unique (hnearest hy)]

end Binary32

namespace Numeral

theorem value_eq (n : Numeral) :
    n.value = signed n.negative (n.coefficient / (10 ^ n.places : ℕ)) := by
  rw [value, Nat.cast_pow, Nat.cast_ofNat]

theorem binary32?_eq (n : Numeral) :
    n.binary32? = Binary32.nearest? n.negative n.coefficient (10 ^ n.places) :=
  rfl

/-- A numeral is read as the number nearest to its value. -/
theorem binary32?_eq_some_iff {n : Numeral} {x : Binary32} :
    n.binary32? = some x ↔ x.IsNearest n.negative n.value := by
  rw [binary32?_eq, value_eq, Binary32.nearest?_eq_some_iff (Nat.pow_pos (by decide))]

/-- **Which numerals are read as a finite number.** -/
theorem exists_binary32?_iff (n : Numeral) :
    (∃ x, n.binary32? = some x) ↔ |n.value| < 2 ^ 128 - 2 ^ 103 := by
  rw [binary32?_eq, value_eq, Binary32.exists_nearest?_iff _ _ (Nat.pow_pos (by decide))]

end Numeral

namespace Binary32

/-! ## Writing -/

/-- The millionths of a finite number are its magnitude to the nearest millionth. -/
theorem roundsTo_millionths (x : Binary32) :
    RoundsTo (multiples (1 / 10 ^ 6)) x.value (signed x.negative (x.millionths / 10 ^ 6))
      (Even x.millionths) := by
  have hr := roundsTo_roundDiv (x.units * 1000000) (Nat.two_pow_pos 149) (u := 1 / 10 ^ 6)
    (by positivity)
  have hquot : ((x.units * 1000000 : ℕ) / (2 ^ 149 : ℕ) * (1 / 10 ^ 6) : ℚ) = x.magnitude := by
    rw [magnitude]
    push_cast
    ring
  rw [hquot, mul_one_div, ← Nat.one_shiftLeft, ← millionths] at hr
  have hneg : ∀ v ∈ multiples (1 / 10 ^ 6), -v ∈ multiples (1 / 10 ^ 6) := by
    rintro _ ⟨k, rfl⟩
    exact ⟨-k, by push_cast; ring⟩
  unfold value signed
  split
  · exact hr.neg hneg
  · exact hr

end Binary32

end SqlScript
