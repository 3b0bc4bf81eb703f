import Mathlib
import SqlScript.Proofs.Digits

/-!
# Writing a real with six places and reading it back

Writing a single-precision number rounds it to millionths, and reading the result rounds it to the
nearest single-precision number again. Below 16 the single-precision numbers are closer together
than the millionths, so the second rounding does not move a number to another millionth; from 16
on they are further apart, so it gives the first number back. At 16 the margin is small: half a
unit of single precision below it is `2 ^ -21`, just less than half a millionth.

So the number read back (`Binary32.reread`) always exists, is written with the same digits
(`Binary32.millionths_reread`), and is the same number if that is at least 16
(`Binary32.reread_eq_self`).
-/

namespace SqlScript

/-! ## Rounding a quotient -/

theorem roundDiv_le_of_le {n d m : Nat} (hd : 0 < d) (h : n ≤ m * d) : roundDiv n d ≤ m := by
  have hr := roundDiv_mul_le n d
  by_contra hlt
  have : (m + 1) * d ≤ roundDiv n d * d := Nat.mul_le_mul_right d (by omega)
  rw [Nat.succ_mul] at this
  omega

theorem le_roundDiv_of_le {n d m : Nat} (hd : 0 < d) (h : m * d ≤ n) : m ≤ roundDiv n d := by
  have hr := le_roundDiv_mul n hd
  by_contra hlt
  have : (roundDiv n d + 1) * d ≤ m * d := Nat.mul_le_mul_right d (by omega)
  rw [Nat.succ_mul] at this
  omega

/-- A quotient less than half a unit away from an integer is rounded to it. -/
theorem roundDiv_eq_of_lt {n d m : Nat} (h₁ : 2 * n < 2 * (m * d) + d)
    (h₂ : 2 * (m * d) < 2 * n + d) : roundDiv n d = m := by
  have hd : 0 < d := by omega
  have hl := le_roundDiv_mul n hd
  have hu := roundDiv_mul_le n d
  rcases Nat.lt_trichotomy (roundDiv n d) m with h | h | h
  · have : (roundDiv n d + 1) * d ≤ m * d := Nat.mul_le_mul_right d h
    rw [Nat.succ_mul] at this
    omega
  · exact h
  · have : (m + 1) * d ≤ roundDiv n d * d := Nat.mul_le_mul_right d h
    rw [Nat.succ_mul] at this
    omega

theorem roundDiv_mul_self (m : Nat) {d : Nat} (hd : 0 < d) : roundDiv (m * d) d = m :=
  roundDiv_eq_of_lt (by omega) (by omega)

namespace Binary32

/-! ## Patterns and magnitudes -/

/-- The magnitude of the pattern `k` places above the start of `e` binades. -/
theorem units_eq {x : Binary32} {e k : Nat} (h : x.pattern = e * binade + k) (hk : k ≤ 2 * binade)
    (he : e = 0 ∨ binade ≤ k) : x.units = k * 2 ^ e := by
  have hdiv : ∀ j r, r < binade →
      (j * binade + r) / binade = j ∧ (j * binade + r) % binade = r := by
    intro j r hr
    simp only [binade] at hr ⊢
    omega
  simp only [binade] at h hk he hdiv
  simp only [units, binade]
  rcases Nat.lt_or_ge k 8388608 with hlt | hge
  · obtain rfl : e = 0 := he.resolve_right (by omega)
    rw [if_pos (by omega), h, Nat.zero_mul, Nat.zero_add, Nat.pow_zero, Nat.mul_one]
  · rcases Nat.lt_or_ge k 16777216 with hlt | hge'
    · obtain ⟨r, rfl⟩ : ∃ r, k = 8388608 + r := ⟨k - 8388608, by omega⟩
      obtain ⟨hq, hm⟩ := hdiv (e + 1) r (by omega)
      have hx : x.pattern = (e + 1) * 8388608 + r := by rw [h]; ring
      rw [hx, hq, hm, if_neg (Nat.succ_ne_zero e), Nat.shiftLeft_eq, Nat.add_sub_cancel]
    · obtain rfl : k = 16777216 := by omega
      obtain ⟨hq, hm⟩ := hdiv (e + 2) 0 (by omega)
      rw [show x.pattern = (e + 2) * 8388608 + 0 by omega, hq, hm, if_neg (by omega),
        Nat.shiftLeft_eq, show e + 2 - 1 = e + 1 by omega, Nat.pow_succ]
      omega

theorem exists_pattern_eq (x : Binary32) : ∃ e k, x.pattern = e * binade + k ∧ k < 2 * binade ∧
    (e = 0 ∨ binade ≤ k) := by
  simp only [binade]
  rcases Nat.lt_or_ge x.pattern 8388608 with h | h
  · exact ⟨0, x.pattern, by omega, by omega, .inl rfl⟩
  · exact ⟨x.pattern / 8388608 - 1, 8388608 + x.pattern % 8388608, by omega, by omega,
      .inr (by omega)⟩

/-! ## The nearest pattern -/

/-- The binades below the quotient `n / d`, except that the first two share the same distances. -/
def shiftOf (n d : Nat) : Nat := (n / d).log2 - 23

theorem nearestPattern_eq (n d : Nat) :
    nearestPattern n d = shiftOf n d * binade + roundDiv n (d * 2 ^ shiftOf n d) := by
  simp only [nearestPattern, shiftOf, Nat.shiftLeft_eq]

theorem lt_of_shiftOf (n : Nat) {d : Nat} (hd : 0 < d) :
    n < 2 * binade * (d * 2 ^ shiftOf n d) := by
  have hq : n / d < 2 ^ ((n / d).log2 + 1) := Nat.lt_log2_self
  have hp : 2 ^ ((n / d).log2 + 1) ≤ 2 ^ (24 + shiftOf n d) :=
    Nat.pow_le_pow_right (by decide) (by simp only [shiftOf]; omega)
  have hn := (Nat.div_lt_iff_lt_mul hd).1 (Nat.lt_of_lt_of_le hq hp)
  rw [Nat.pow_add] at hn
  calc n < 2 ^ 24 * 2 ^ shiftOf n d * d := hn
    _ = 2 * binade * (d * 2 ^ shiftOf n d) := by norm_num [binade]; ring

theorem le_of_shiftOf {n d : Nat} (hd : 0 < d) (h : shiftOf n d ≠ 0) :
    binade * (d * 2 ^ shiftOf n d) ≤ n := by
  have hne : n / d ≠ 0 := by
    intro h0
    simp [shiftOf, h0] at h
  have hlog : 23 + shiftOf n d ≤ (n / d).log2 := by
    simp only [shiftOf] at h ⊢
    omega
  have hp : 2 ^ (23 + shiftOf n d) ≤ n / d := (Nat.le_log2 hne).1 hlog
  have hn := (Nat.le_div_iff_mul_le hd).1 hp
  rw [Nat.pow_add] at hn
  calc binade * (d * 2 ^ shiftOf n d) = 2 ^ 23 * 2 ^ shiftOf n d * d := by norm_num [binade]; ring
    _ ≤ n := hn

/-- The nearest pattern stands for the quotient rounded to the distance of its binade. -/
theorem units_of_nearestPattern {x : Binary32} {n d : Nat} (hd : 0 < d)
    (h : x.pattern = nearestPattern n d) :
    x.units = roundDiv n (d * 2 ^ shiftOf n d) * 2 ^ shiftOf n d := by
  have hpos : 0 < d * 2 ^ shiftOf n d := by positivity
  refine units_eq (h.trans (nearestPattern_eq n d)) ?_ ?_
  · exact roundDiv_le_of_le hpos (lt_of_shiftOf n hd).le
  · rcases Nat.eq_zero_or_pos (shiftOf n d) with h0 | h0
    · exact .inl h0
    · exact .inr (le_roundDiv_of_le hpos (le_of_shiftOf hd (by omega)))

/-- The binade is told by the bounds that its numbers lie between. -/
theorem shiftOf_eq {n d e : Nat} (hd : 0 < d) (hu : n < 2 * binade * (d * 2 ^ e))
    (hl : binade * (d * 2 ^ e) ≤ n) : shiftOf n d = e := by
  have hl' : 2 ^ (23 + e) ≤ n / d := by
    rw [Nat.le_div_iff_mul_le hd, Nat.pow_add]
    calc 2 ^ 23 * 2 ^ e * d = binade * (d * 2 ^ e) := by norm_num [binade]; ring
      _ ≤ n := hl
  have hu' : n / d < 2 ^ (23 + e + 1) := by
    rw [Nat.div_lt_iff_lt_mul hd, Nat.pow_succ, Nat.pow_add]
    calc n < 2 * binade * (d * 2 ^ e) := hu
      _ = 2 ^ 23 * 2 ^ e * 2 * d := by norm_num [binade]; ring
  have hne : n / d ≠ 0 := by
    have := Nat.two_pow_pos (23 + e)
    omega
  have := (Nat.log2_eq_iff hne).2 ⟨hl', hu'⟩
  simp only [shiftOf]
  omega

/-! ## Millionths and back -/

theorem millionths_mul_le (x : Binary32) :
    2 * (x.millionths * 2 ^ 149) ≤ 2 * (x.units * 1000000) + 2 ^ 149 := by
  simpa only [millionths, Nat.one_shiftLeft] using roundDiv_mul_le (x.units * 1000000) (2 ^ 149)

theorem le_millionths_mul (x : Binary32) :
    2 * (x.units * 1000000) ≤ 2 * (x.millionths * 2 ^ 149) + 2 ^ 149 := by
  simpa only [millionths, Nat.one_shiftLeft] using
    le_roundDiv_mul (x.units * 1000000) (Nat.two_pow_pos 149)

/-- A magnitude that is a whole number is a whole number of millionths. -/
theorem millionths_of_units {x : Binary32} {n : Nat} (h : x.units = n * 2 ^ 149) :
    x.millionths = n * 1000000 := by
  rw [millionths, h, Nat.one_shiftLeft, Nat.mul_right_comm]
  exact roundDiv_mul_self _ (Nat.two_pow_pos 149)

/-- A number from 16 on is `130` binades up or more, and no subnormal one. -/
theorem exists_pattern_eq_of_le {x : Binary32} (h : 16 * 2 ^ 149 ≤ x.units) :
    ∃ e k, x.pattern = e * binade + k ∧ x.units = k * 2 ^ e ∧ 130 ≤ e ∧
      binade ≤ k ∧ k < 2 * binade := by
  obtain ⟨e, k, hp, hk, he⟩ := exists_pattern_eq x
  have hu : x.units = k * 2 ^ e := units_eq hp hk.le he
  have he' : 130 ≤ e := by
    by_contra hlt
    have : 2 ^ e ≤ 2 ^ 129 := Nat.pow_le_pow_right (by decide) (by omega)
    have : x.units ≤ (2 * binade - 1) * 2 ^ 129 := hu ▸ Nat.mul_le_mul (by omega) this
    simp only [binade] at this
    omega
  exact ⟨e, k, hp, hu, he', he.resolve_left (by omega), hk⟩

/-- From 16 on a number is the nearest one to its millionths. -/
theorem nearestPattern_millionths {x : Binary32} (h : 16 * 2 ^ 149 ≤ x.units) :
    nearestPattern (x.millionths * 2 ^ 149) 1000000 = x.pattern := by
  obtain ⟨e, k, hp, hu, he, hk, hk'⟩ := exists_pattern_eq_of_le h
  have hlow := le_millionths_mul x
  have hhigh := millionths_mul_le x
  -- half a millionth is less than half the distance between numbers
  have hd : 2 ^ 149 < 1000000 * 2 ^ e := by
    have : 2 ^ 130 ≤ 2 ^ e := Nat.pow_le_pow_right (by decide) he
    omega
  rw [show x.units * 1000000 = k * (1000000 * 2 ^ e) by rw [hu]; ring] at hlow hhigh
  have hbelow : binade * (1000000 * 2 ^ e) ≤ x.millionths * 2 ^ 149 := by
    rcases hk.eq_or_lt with rfl | hlt
    · -- a power of two is a whole number here, so no rounding is needed
      have hw : x.units = 2 ^ (e - 126) * 2 ^ 149 := by
        rw [hu, ← Nat.pow_add, show e - 126 + 149 = 23 + e by omega, Nat.pow_add]
      rw [millionths_of_units hw]
      refine le_of_eq ?_
      calc binade * (1000000 * 2 ^ e) = x.units * 1000000 := by rw [hu]; ring
        _ = 2 ^ (e - 126) * 1000000 * 2 ^ 149 := by rw [hw]; ring
    · have : (binade + 1) * (1000000 * 2 ^ e) ≤ k * (1000000 * 2 ^ e) :=
        Nat.mul_le_mul_right _ hlt
      rw [Nat.succ_mul] at this
      omega
  have habove : x.millionths * 2 ^ 149 < 2 * binade * (1000000 * 2 ^ e) := by
    have : (k + 1) * (1000000 * 2 ^ e) ≤ 2 * binade * (1000000 * 2 ^ e) :=
      Nat.mul_le_mul_right _ hk'
    rw [Nat.succ_mul] at this
    omega
  rw [nearestPattern_eq, shiftOf_eq (by decide) habove hbelow,
    roundDiv_eq_of_lt (m := k) (by omega) (by omega), hp]

/-- Numbers of millionths below 16 lie less than `130` binades up. -/
theorem shiftOf_le_of_lt {m : Nat} (hm : m < 16000000) :
    shiftOf (m * 2 ^ 149) 1000000 ≤ 129 := by
  by_contra hgt
  have hl := le_of_shiftOf (n := m * 2 ^ 149) (d := 1000000) (by decide) (by omega)
  have : 2 ^ 130 ≤ 2 ^ shiftOf (m * 2 ^ 149) 1000000 :=
    Nat.pow_le_pow_right (by decide) (by omega)
  simp only [binade] at hl
  omega

theorem nearestPattern_lt_of_lt {m : Nat} (hm : m < 16000000) :
    nearestPattern (m * 2 ^ 149) 1000000 < infinity := by
  have hs := shiftOf_le_of_lt hm
  have hpos : 0 < 1000000 * 2 ^ shiftOf (m * 2 ^ 149) 1000000 := by positivity
  have hr := roundDiv_le_of_le (m := 2 * binade) hpos (lt_of_shiftOf (m * 2 ^ 149) (by decide)).le
  rw [nearestPattern_eq]
  simp only [binade, infinity] at hr ⊢
  omega

/-- Below 16 the numbers are closer together than the millionths. -/
theorem millionths_eq_of_lt {m : Nat} (hm : m < 16000000) {y : Binary32}
    (hy : y.pattern = nearestPattern (m * 2 ^ 149) 1000000) : y.millionths = m := by
  have hfine : 1000000 * 2 ^ shiftOf (m * 2 ^ 149) 1000000 < 2 ^ 149 := by
    have : 2 ^ shiftOf (m * 2 ^ 149) 1000000 ≤ 2 ^ 129 :=
      Nat.pow_le_pow_right (by decide) (shiftOf_le_of_lt hm)
    omega
  have hpos : 0 < 1000000 * 2 ^ shiftOf (m * 2 ^ 149) 1000000 := by positivity
  have hu := units_of_nearestPattern (by decide) hy
  have hlow := le_roundDiv_mul (m * 2 ^ 149) hpos
  have hhigh := roundDiv_mul_le (m * 2 ^ 149) (1000000 * 2 ^ shiftOf (m * 2 ^ 149) 1000000)
  rw [show roundDiv (m * 2 ^ 149) (1000000 * 2 ^ shiftOf (m * 2 ^ 149) 1000000) *
      (1000000 * 2 ^ shiftOf (m * 2 ^ 149) 1000000) = y.units * 1000000 by rw [hu]; ring]
    at hlow hhigh
  rw [millionths, Nat.one_shiftLeft]
  exact roundDiv_eq_of_lt (by omega) (by omega)

/-- The number 16 is the first one `130` binades up. -/
theorem nearestPattern_sixteen :
    nearestPattern (16000000 * 2 ^ 149) 1000000 = 130 * binade + binade := by
  have hs : shiftOf (16000000 * 2 ^ 149) 1000000 = 130 :=
    shiftOf_eq (by decide) (by norm_num [binade]) (by norm_num [binade])
  rw [nearestPattern_eq, hs,
    show 16000000 * 2 ^ 149 = binade * (1000000 * 2 ^ 130) by norm_num [binade],
    roundDiv_mul_self _ (by positivity)]

/-- Up to 16 the number nearest to a number of millionths has that many millionths. -/
theorem nearestPattern_lt_and_millionths_eq {m : Nat} (hm : m ≤ 16000000) :
    nearestPattern (m * 2 ^ 149) 1000000 < infinity ∧
      ∀ y : Binary32, y.pattern = nearestPattern (m * 2 ^ 149) 1000000 → y.millionths = m := by
  rcases hm.eq_or_lt with rfl | hlt
  · rw [nearestPattern_sixteen]
    refine ⟨by decide, fun y hy => ?_⟩
    have hu : y.units = binade * 2 ^ 130 := units_eq hy (by decide) (.inr le_rfl)
    exact millionths_of_units (n := 16) (hu.trans (by norm_num [binade]))
  · exact ⟨nearestPattern_lt_of_lt hlt, fun y hy => millionths_eq_of_lt hlt hy⟩

/-- The number nearest to the millionths of a finite number has as many millionths, and is the
number itself from 16 on. -/
theorem exists_nearest?_millionths {x : Binary32} (hx : x.isFinite = true) :
    ∃ y, nearest? x.negative x.millionths 1000000 = some y ∧ y.millionths = x.millionths ∧
      (16 * 2 ^ 149 ≤ x.units → y = x) := by
  have hfin : x.pattern < infinity := of_decide_eq_true hx
  rcases Nat.lt_or_ge x.units (16 * 2 ^ 149) with hlt | hge
  · have hm : x.millionths ≤ 16000000 := by
      have := millionths_mul_le x
      omega
    obtain ⟨hp, hy⟩ := nearestPattern_lt_and_millionths_eq hm
    rw [← Nat.shiftLeft_eq] at hp hy
    exact ⟨⟨x.negative, _, Nat.lt_trans hp (by decide)⟩, dif_pos hp, hy _ rfl, by omega⟩
  · have hp := nearestPattern_millionths hge
    rw [← Nat.shiftLeft_eq] at hp
    refine ⟨x, ?_, rfl, fun _ => rfl⟩
    simp only [nearest?, hp, hfin, dif_pos]

/-! ## Six places -/

/-- The characters of a number of millionths: the whole part, a point and six digits. -/
theorem exists_toList_decimalOfMillionths (m : Nat) : ∃ ds : List Char,
    (decimalOfMillionths m).toList = Nat.toDigits 10 (m / 1000000) ++ '.' :: ds ∧
      (∀ c ∈ ds, c.isDigit = true) ∧ ds.length = 6 ∧
      Nat.ofDigitChars 10 (Nat.toDigits 10 (m / 1000000) ++ ds) 0 = m := by
  have hlen : (Nat.toDigits 10 (m % 1000000)).length ≤ 6 :=
    (Nat.length_toDigits_le_iff (by decide) (by decide)).2 (Nat.mod_lt m (by decide))
  refine ⟨(Nat.toDigits 10 (m % 1000000)).leftpad 6 '0', ?_, ?_, ?_, ?_⟩
  · simp [decimalOfMillionths, Nat.toList_repr]
  · intro c hc
    rcases List.mem_append.1 hc with hc | hc
    · rw [List.eq_of_mem_replicate hc]
      rfl
    · exact isDigit_of_mem_toDigits hc
  · rw [List.length_leftpad]
    omega
  · have hpow : 10 ^ (Nat.toDigits 10 (m % 1000000)).length *
        10 ^ (6 - (Nat.toDigits 10 (m % 1000000)).length) = 1000000 := by
      rw [← Nat.pow_add, show _ + (6 - (Nat.toDigits 10 (m % 1000000)).length) = 6 by omega]
    rw [List.leftpad, Nat.ofDigitChars_append, Nat.ofDigitChars_append,
      Nat.ofDigitChars_ten_toDigits, Nat.ofDigitChars_replicate_zero,
      Nat.ofDigitChars_eq_ofDigitChars_zero, Nat.ofDigitChars_ten_toDigits, ← Nat.mul_assoc, hpow]
    exact Nat.div_add_mod m 1000000

/-- Reading the digits of a number of millionths gives it back. -/
theorem readDigits_decimalOfMillionths (s : Bool) (m : Nat) :
    Numeral.readDigits s (decimalOfMillionths m).toList = ⟨s, m, 6⟩ := by
  obtain ⟨ds, hds, -, hlen, hval⟩ := exists_toList_decimalOfMillionths m
  rw [hds, Numeral.readDigits_point fun c hc => isDigit_of_mem_toDigits hc, hval, hlen]

/-- The characters of a finite number: a minus sign if its sign is set, and its millionths. -/
theorem toList_sixPlaces {x : Binary32} (h : x.isFinite = true) :
    x.sixPlaces.toList =
      (if x.negative then ['-'] else []) ++ (decimalOfMillionths x.millionths).toList := by
  have hfin : x.pattern < infinity := of_decide_eq_true h
  have hnan : x.isNaN = false := decide_eq_false (by omega)
  simp only [sixPlaces, hnan, h, Bool.false_eq_true, if_false, if_true, String.toList_append]
  -- the digits are made a variable, so that no check of an equality computes them
  generalize (decimalOfMillionths x.millionths).toList = cs
  cases x.negative with
  | true => rfl
  | false => rfl

theorem read_sixPlaces {x : Binary32} (h : x.isFinite = true) :
    Numeral.read x.sixPlaces.toList = ⟨x.negative, x.millionths, 6⟩ := by
  obtain ⟨ds, hds, -⟩ := exists_toList_decimalOfMillionths x.millionths
  obtain ⟨d, cs, hcs, hd⟩ := exists_toDigits_eq_cons (x.millionths / 1000000)
  rw [hcs, List.cons_append] at hds
  rw [toList_sixPlaces h, hds, Numeral.read_sign_append hd, ← hds, readDigits_decimalOfMillionths]

/-- The number that the six places of a finite number read back as; the other numbers are kept. -/
def reread (x : Binary32) : Binary32 :=
  if x.isFinite then (Numeral.read x.sixPlaces.toList).binary32?.getD x else x

theorem reread_spec {x : Binary32} (h : x.isFinite = true) :
    (Numeral.read x.sixPlaces.toList).binary32? = some x.reread ∧
      x.reread.millionths = x.millionths ∧ (16 * 2 ^ 149 ≤ x.units → x.reread = x) := by
  obtain ⟨y, hy, hm, hl⟩ := exists_nearest?_millionths h
  have hr : (Numeral.read x.sixPlaces.toList).binary32? = some y := by
    rw [read_sixPlaces h]
    exact hy
  have he : x.reread = y := by rw [reread, if_pos h, hr, Option.getD_some]
  exact ⟨hr.trans (congrArg some he.symm), he ▸ hm, fun h16 => he ▸ hl h16⟩

/-- **The six places of a finite number can be read**, whatever the number. -/
theorem binary32?_read_sixPlaces {x : Binary32} (h : x.isFinite = true) :
    (Numeral.read x.sixPlaces.toList).binary32? = some x.reread :=
  (reread_spec h).1

/-- The number read back has as many millionths. -/
theorem millionths_reread {x : Binary32} (h : x.isFinite = true) :
    x.reread.millionths = x.millionths :=
  (reread_spec h).2.1

/-- **From 16 on nothing is lost.** -/
theorem reread_eq_self {x : Binary32} (h : x.isFinite = true) (hx : 16 * 2 ^ 149 ≤ x.units) :
    x.reread = x :=
  (reread_spec h).2.2 hx

/-- Below it a number can change: the smallest positive one is read back as zero. -/
example : (⟨false, 1, by decide⟩ : Binary32).reread = ⟨false, 0, by decide⟩ := by decide +kernel

theorem reread_of_not_isFinite {x : Binary32} (h : x.isFinite = false) : x.reread = x := by
  simp [reread, h]

theorem isFinite_reread (x : Binary32) : x.reread.isFinite = x.isFinite := by
  cases h : x.isFinite with
  | true => exact isFinite_of_nearest? (binary32?_read_sixPlaces h)
  | false => rw [reread_of_not_isFinite h, h]

theorem negative_reread (x : Binary32) : x.reread.negative = x.negative := by
  cases h : x.isFinite with
  | true =>
    have hr := binary32?_read_sixPlaces h
    rw [read_sixPlaces h] at hr
    exact negative_of_nearest? hr
  | false => rw [reread_of_not_isFinite h]

/-- The number read back is written with the same six places. -/
@[simp] theorem sixPlaces_reread (x : Binary32) : x.reread.sixPlaces = x.sixPlaces := by
  cases h : x.isFinite with
  | true =>
    have h' := (isFinite_reread x).trans h
    refine String.toList_inj.1 ?_
    rw [toList_sixPlaces h, toList_sixPlaces h', negative_reread,
      millionths_reread h]
  | false => rw [reread_of_not_isFinite h]

/-- Reading back a second time changes nothing more. -/
@[simp] theorem reread_reread (x : Binary32) : x.reread.reread = x.reread := by
  cases h : x.isFinite with
  | true =>
    have h' := (isFinite_reread x).trans h
    have hr := binary32?_read_sixPlaces h'
    rw [sixPlaces_reread, binary32?_read_sixPlaces h] at hr
    exact (Option.some.inj hr).symm
  | false => rw [reread_of_not_isFinite h, reread_of_not_isFinite h]

end Binary32

end SqlScript
