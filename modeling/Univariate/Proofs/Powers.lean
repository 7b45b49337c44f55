import Mathlib

/-!
# Square and multiply

A power is taken bit by bit: the base is squared, the exponent is halved,
and a bit that is set multiplies what has been taken so far.  Each round
leaves the product of what has been taken with what is still to come as it
was, and no round needs a number that the power does not reach itself.

* `mul_pow_halves` — one round, in any monoid;
* `sq_pow_half_le` — what is still to come grows no further;
* `mul_halves` — the same round for multiples, as degrees and counts of
  roundings need it.
-/

namespace Univariate

/-- One round of square and multiply takes the lowest bit off the
exponent. -/
theorem mul_pow_halves {M : Type} [Monoid M] (acc x : M) (n : ℕ) :
    (if n % 2 = 1 then acc * x else acc) * (x * x) ^ (n / 2) = acc * x ^ n := by
  have hsplit : x ^ n = x ^ (n % 2) * (x * x) ^ (n / 2) := by
    rw [← pow_two, ← pow_mul, ← pow_add, Nat.mod_add_div]
  rw [hsplit, ← mul_assoc]
  rcases Nat.mod_two_eq_zero_or_one n with heven | hodd
  · rw [if_neg (by omega), heven, pow_zero, mul_one]
  · rw [if_pos hodd, hodd, pow_one]

/-- Half the exponent and twice the base: the rest of the loop has no more
to do than the whole of it. -/
theorem sq_pow_half_le (c : ℕ) {n : ℕ} (hn : n / 2 ≠ 0) : (c * c) ^ (n / 2) ≤ c ^ n := by
  rcases Nat.eq_zero_or_pos c with rfl | hc
  · rw [Nat.mul_zero, zero_pow hn]
    exact Nat.zero_le _
  · rw [← pow_two, ← pow_mul]
    exact Nat.pow_le_pow_right hc (by omega)

/-- The lowest bit of a factor and the bits above it. -/
theorem mul_halves (e n : ℕ) : e * (n % 2) + (e + e) * (n / 2) = e * n := by
  conv_rhs => rw [← Nat.mod_add_div n 2]
  ring

end Univariate
