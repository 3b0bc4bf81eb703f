import SqlScript.Rounding

/-!
# Single-precision numbers

A number of 32 bits is a sign and the pattern of the 31 bits below it. Patterns are ordered like
the magnitudes they stand for: those below `Binary32.infinity` stand for finite magnitudes, that
one for infinity, and those above it for no number. A finite magnitude is a whole number of units
of `2 ^ -149` (`Binary32.units`), so all arithmetic on it is exact arithmetic on naturals.

Two roundings connect these numbers with decimal notation. `Binary32.nearest?` reads the quotient
of two naturals, `Binary32.sixPlaces` writes a number with six places after the point; both go to
the nearest value, and to the even one on a tie.
-/

namespace SqlScript

/-- A single-precision number, by its sign and the pattern of its other bits. There are
`2 ^ 31` patterns. -/
structure Binary32 where
  negative : Bool
  pattern : Nat
  pattern_lt : pattern < 2147483648
  deriving DecidableEq

namespace Binary32

/-- The number of patterns in a binade, `2 ^ 23`. -/
abbrev binade : Nat := 8388608

/-- The pattern of infinity, `255` binades up. Every pattern below it is that of a finite
magnitude. -/
abbrev infinity : Nat := 2139095040

/-- The number with the given 32 bits. -/
def ofBits (b : UInt32) : Binary32 :=
  ⟨2147483648 ≤ b.toNat, b.toNat % 2147483648, Nat.mod_lt _ (by decide)⟩

/-- The 32 bits of a number. -/
def bits (x : Binary32) : Nat := (if x.negative then 2147483648 else 0) + x.pattern

/-- Whether the number is finite. -/
def isFinite (x : Binary32) : Bool := x.pattern < infinity

/-- Whether the number stands for no number. -/
def isNaN (x : Binary32) : Bool := infinity < x.pattern

/-- Whether the number is one of the two zeros. -/
def isZero (x : Binary32) : Bool := x.pattern = 0

/-- Equality as numbers: the two zeros are equal, and what is no number equals nothing. -/
def agrees (x y : Binary32) : Bool :=
  !x.isNaN && !y.isNaN && (x = y || (x.isZero && y.isZero))

/-! ## Reading -/

/-- The pattern of the magnitude nearest to `n / d` units. The values of one binade are
`2 ^ shift` units apart, and the first two binades share the smallest distance. -/
def nearestPattern (n d : Nat) : Nat :=
  let shift := (n / d).log2 - 23
  shift * binade + roundDiv n (d <<< shift)

/-- The number nearest to `n / d`, with the given sign, unless it is infinite. -/
def nearest? (negative : Bool) (n d : Nat) : Option Binary32 :=
  let p := nearestPattern (n <<< 149) d
  if h : p < infinity then some ⟨negative, p, Nat.lt_trans h (by decide)⟩ else none

theorem isFinite_of_nearest? {s : Bool} {n d : Nat} {x : Binary32}
    (h : nearest? s n d = some x) : x.isFinite = true := by
  unfold nearest? at h
  dsimp only at h
  split at h
  · next hp =>
    obtain rfl := Option.some.inj h
    exact decide_eq_true hp
  · exact absurd h (by simp)

theorem negative_of_nearest? {s : Bool} {n d : Nat} {x : Binary32}
    (h : nearest? s n d = some x) : x.negative = s := by
  unfold nearest? at h
  dsimp only at h
  split at h
  · obtain rfl := Option.some.inj h
    rfl
  · exact absurd h (by simp)

/-! ## Writing -/

/-- The magnitude of a finite number in units of `2 ^ -149`. -/
def units (x : Binary32) : Nat :=
  let exponent := x.pattern / binade
  if exponent = 0 then x.pattern else (binade + x.pattern % binade) <<< (exponent - 1)

/-- The magnitude of a finite number in millionths, rounded. -/
def millionths (x : Binary32) : Nat := roundDiv (x.units * 1000000) (1 <<< 149)

/-- `m` millionths in decimal notation, with six places. -/
def decimalOfMillionths (m : Nat) : String :=
  toString (m / 1000000) ++ "." ++
    String.ofList ((Nat.toDigits 10 (m % 1000000)).leftpad 6 '0')

/-- The number in decimal notation. A finite one has six places, and a minus sign whenever its
sign is set, also if all its digits are zero. -/
def sixPlaces (x : Binary32) : String :=
  if x.isNaN then "NaN"
  else (if x.negative then "-" else "") ++
    if x.isFinite then decimalOfMillionths x.millionths else "inf"

end Binary32

end SqlScript
