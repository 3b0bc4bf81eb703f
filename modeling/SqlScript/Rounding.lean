/-!
# Rounding a quotient

`roundDiv n d` is the integer nearest to the exact quotient `n / d`, and the even one of two that
are equally near. Both ways between decimal and binary notation round by it. Its error is at most
half a unit (`roundDiv_mul_le` and `le_roundDiv_mul`), and a tie gives an even number
(`even_roundDiv_of_tie`).
-/

namespace SqlScript

/-- The integer nearest to `n / d`; of two equally near ones the even one. -/
def roundDiv (n d : Nat) : Nat :=
  let q := n / d
  let r := n % d
  if 2 * r < d then q else if d < 2 * r then q + 1 else q + q % 2

/-- Rounding goes down at most half a unit, or up at most half a unit. -/
theorem roundDiv_eq (n d : Nat) :
    (roundDiv n d = n / d ∧ 2 * (n % d) ≤ d) ∨ (roundDiv n d = n / d + 1 ∧ d ≤ 2 * (n % d)) := by
  unfold roundDiv
  dsimp only
  split
  · omega
  · split <;> omega

theorem roundDiv_mul_le (n d : Nat) : 2 * (roundDiv n d * d) ≤ 2 * n + d := by
  have e := Nat.div_add_mod' n d
  have s : (n / d + 1) * d = n / d * d + d := Nat.succ_mul _ _
  rcases roundDiv_eq n d with ⟨h, _⟩ | ⟨h, _⟩ <;> rw [h] <;> omega

theorem le_roundDiv_mul (n : Nat) {d : Nat} (h : 0 < d) : 2 * n ≤ 2 * (roundDiv n d * d) + d := by
  have e := Nat.div_add_mod' n d
  have s : (n / d + 1) * d = n / d * d + d := Nat.succ_mul _ _
  have l := Nat.mod_lt n h
  rcases roundDiv_eq n d with ⟨h, _⟩ | ⟨h, _⟩ <;> rw [h] <;> omega

theorem even_roundDiv_of_tie {n d : Nat} (h : 2 * (n % d) = d) : roundDiv n d % 2 = 0 := by
  simp only [roundDiv, h, Nat.lt_irrefl, if_false]
  omega

end SqlScript
