import SqlScript.Binary32

/-!
# Decimal numerals

A numeral is an optional sign, digits, and perhaps a point with more digits. `Numeral.read` takes
one apart exactly: its value is `coefficient / 10 ^ places`, negated if the sign says so. A whole
numeral denotes an integer, which `Numeral.int32?` gives if it fits 32 bits; any numeral has a
nearest single-precision number, which `Numeral.binary32?` gives unless it is infinite. However
many digits a numeral has, it is rounded once or not at all.

`Numeral.integer?` and `Numeral.real?` read a text that may be no numeral, and then give nothing.
-/

namespace SqlScript

/-- A decimal numeral: `coefficient / 10 ^ places`, negated if `negative`. -/
structure Numeral where
  negative : Bool
  coefficient : Nat
  places : Nat
  deriving DecidableEq

namespace Numeral

/-- The numeral with the digits `cs`, which may hold a point. -/
def readDigits (negative : Bool) (cs : List Char) : Numeral :=
  let whole := cs.takeWhile (· ≠ '.')
  let decimals := (cs.dropWhile (· ≠ '.')).drop 1
  ⟨negative, Nat.ofDigitChars 10 (whole ++ decimals) 0, decimals.length⟩

/-- The numeral that the characters `cs` write. -/
def read : List Char → Numeral
  | '-' :: cs => readDigits true cs
  | '+' :: cs => readDigits false cs
  | cs => readDigits false cs

/-- The integer that a whole numeral denotes. -/
def toInt (n : Numeral) : Int := if n.negative then -n.coefficient else n.coefficient

/-- The 32-bit integer that a whole numeral denotes, if there is one. -/
def int32? (n : Numeral) : Option Int32 :=
  if -2147483648 ≤ n.toInt ∧ n.toInt < 2147483648 then some (Int32.ofInt n.toInt) else none

/-- The single-precision number nearest to the value of a numeral, unless it is infinite. -/
def binary32? (n : Numeral) : Option Binary32 :=
  Binary32.nearest? n.negative n.coefficient (Nat.pow 10 n.places)

/-- The characters behind the sign, if there is one. -/
def unsigned : List Char → List Char
  | '-' :: cs => cs
  | '+' :: cs => cs
  | cs => cs

/-- Whether the characters are digits, one at least. -/
def areDigits (cs : List Char) : Bool := !cs.isEmpty && cs.all Char.isDigit

/-- The 32-bit integer that the characters `cs` write, which must be a sign or none and digits. -/
def integer? (cs : List Char) : Option Int32 :=
  if areDigits (unsigned cs) then (read cs).int32? else none

/-- The single-precision number that the characters `cs` write, which must be a sign or none,
digits, a point and perhaps more digits. -/
def real? (cs : List Char) : Option Binary32 :=
  match (unsigned cs).dropWhile Char.isDigit with
  | '.' :: decimals =>
    if areDigits ((unsigned cs).takeWhile Char.isDigit) && decimals.all Char.isDigit then
      (read cs).binary32?
    else none
  | _ => none

/-- Reading a 32-bit integer neither wraps nor saturates. -/
theorem int32?_eq_some_iff {n : Numeral} {i : Int32} :
    n.int32? = some i ↔ n.toInt = i.toInt := by
  unfold int32?
  constructor
  · intro h
    split at h
    · next hr =>
      obtain rfl := Option.some.inj h
      exact (Int32.toInt_ofInt_of_le (by omega) (by omega)).symm
    · exact absurd h (by simp)
  · intro h
    have hl := Int32.le_toInt i
    have hu := Int32.toInt_lt i
    rw [h, if_pos (by omega), Int32.ofInt_toInt]

end Numeral

end SqlScript
