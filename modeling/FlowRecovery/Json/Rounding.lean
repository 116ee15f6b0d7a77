/-!
# Rounding to double precision

A double-precision number has 53 significant bits. `Double.nearest` is the whole number of that
precision next to a given one; of two that are equally near, it is the one whose last bit is zero.
A whole number up to 53 bits is its own nearest (`Double.nearest_of_lt`). From `Double.overflow` on,
what is nearest is infinity.
-/

namespace FlowRecovery

namespace Double

/-- Divides and rounds to the nearest whole number; of two that are equally near, to the even
one. -/
def roundDiv (n d : Nat) : Nat :=
  if 2 * (n % d) < d ∨ 2 * (n % d) = d ∧ n / d % 2 = 0 then n / d else n / d + 1

/-- The distance between the double-precision numbers around `n`, but at least one. -/
def spacing (n : Nat) : Nat := Nat.pow 2 (Nat.log2 n - 52)

/-- The whole double-precision number next to `n`, with no bound on its exponent. -/
def nearest (n : Nat) : Nat := roundDiv n (spacing n) * spacing n

/-- The least whole number that is rounded to infinity: half a unit above the greatest finite
double-precision number. -/
def overflow : Nat := Nat.pow 2 1024 - Nat.pow 2 970

@[simp] theorem roundDiv_one (n : Nat) : roundDiv n 1 = n := by
  simp [roundDiv, Nat.mod_one]

theorem spacing_of_lt {n : Nat} (h : n < Nat.pow 2 53) : spacing n = 1 := by
  have hlog : Nat.log2 n < 53 := by
    by_cases hn : n = 0
    · subst hn; decide
    · exact (Nat.log2_lt hn).2 h
  simp [spacing, Nat.sub_eq_zero_of_le (show Nat.log2 n ≤ 52 by omega)]

theorem nearest_of_lt {n : Nat} (h : n < Nat.pow 2 53) : nearest n = n := by
  rw [nearest, spacing_of_lt h, roundDiv_one, Nat.mul_one]

theorem roundDiv_mul_le (n d : Nat) : roundDiv n d * d ≤ n + d := by
  have hle := Nat.div_mul_le_self n d
  unfold roundDiv
  split
  · omega
  · rw [Nat.succ_mul]
    omega

theorem spacing_le {n : Nat} (h : n ≠ 0) : spacing n ≤ n :=
  Nat.le_trans (Nat.pow_le_pow_right (by decide) (Nat.sub_le _ _)) (Nat.log2_self_le h)

theorem nearest_le_two_mul (n : Nat) : nearest n ≤ 2 * n := by
  by_cases h : n = 0
  · subst h
    exact Nat.le_of_eq (nearest_of_lt (by decide))
  · have hround := roundDiv_mul_le n (spacing n)
    have hspacing := spacing_le h
    unfold nearest
    omega

end Double

end FlowRecovery
