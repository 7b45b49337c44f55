import Univariate.Proofs.Binary64.Nearest
import Univariate.Proofs.Powers

/-!
# Integers of fifty-three bits

Sums, differences and products of integers are exact while they fit into
fifty-three bits, and so are powers: squaring one's way up to a power that
fits meets no larger number, but for a last square that is never used.
Exponents of more than 31 bits leave only zero and the units, whose powers
do not grow.

* `Exactly.add_int`, `Exactly.sub_int`, `Exactly.mul_int` — arithmetic, with
  `Exactly.add_nat`, `Exactly.mul_nat` for natural numbers;
* `Exactly.powLoop_int`, `Exactly.pow_int` — powers.
-/

namespace Univariate

namespace Binary64

/-- Integers of fifty-three bits fit into the format. -/
theorem representable_of_natAbs_lt {a : ℤ} (h : a.natAbs < 2 ^ 53) : Representable a := by
  refine representable_int ?_
  rw [Int.abs_eq_natAbs]
  exact_mod_cast h

namespace Exactly

variable {x y acc : Float} {a b : ℤ} {m n : ℕ}

/-! ## Arithmetic -/

/-- **A sum of integers that fits is exact.** -/
theorem add_int (hx : Exactly x a) (hy : Exactly y b) (h : (a + b).natAbs < 2 ^ 53) :
    Exactly (x + y) (a + b : ℤ) := by
  have hsum := hx.add hy (by exact_mod_cast representable_of_natAbs_lt h)
  exact_mod_cast hsum

/-- **A difference of integers that fits is exact.** -/
theorem sub_int (hx : Exactly x a) (hy : Exactly y b) (h : (a - b).natAbs < 2 ^ 53) :
    Exactly (x - y) (a - b : ℤ) := by
  have hdifference := (hx.nearest_sub hy).exactly_of_representable
    (by exact_mod_cast representable_of_natAbs_lt h)
  exact_mod_cast hdifference

/-- **A product of integers that fits is exact.** -/
theorem mul_int (hx : Exactly x a) (hy : Exactly y b) (h : (a * b).natAbs < 2 ^ 53) :
    Exactly (x * y) (a * b : ℤ) := by
  have hproduct := hx.mul hy (by exact_mod_cast representable_of_natAbs_lt h)
  exact_mod_cast hproduct

/-- A sum of natural numbers that fits is exact. -/
theorem add_nat (hx : Exactly x m) (hy : Exactly y n) (h : m + n < 2 ^ 53) :
    Exactly (x + y) (m + n : ℕ) := by
  have hsum := add_int (a := m) (b := n) (by exact_mod_cast hx) (by exact_mod_cast hy) (by omega)
  exact_mod_cast hsum

/-- A product of natural numbers that fits is exact. -/
theorem mul_nat (hx : Exactly x m) (hy : Exactly y n) (h : m * n < 2 ^ 53) :
    Exactly (x * y) (m * n : ℕ) := by
  have hproduct := mul_int (a := m) (b := n) (by exact_mod_cast hx) (by exact_mod_cast hy)
    (by rwa [← Int.natCast_mul, Int.natAbs_natCast])
  exact_mod_cast hproduct

/-! ## Powers -/

/-- **Square and multiply is exact** while the power and its multiple
fit. -/
theorem powLoop_int (hacc : Exactly acc b) (hx : Exactly x a) (hpow : a.natAbs ^ n < 2 ^ 53)
    (hmul : b.natAbs * a.natAbs ^ n < 2 ^ 53) :
    Exactly (Scalar.powLoop acc x n) (b * a ^ n : ℤ) := by
  induction n using Nat.strong_induction_on generalizing acc x b a with
  | _ n ih =>
      rw [Scalar.powLoop]
      by_cases hn : n = 0
      · rw [if_pos hn, hn, pow_zero, mul_one]
        exact hacc
      rw [if_neg hn, ← mul_pow_halves b a n]
      have hself : a.natAbs ≤ a.natAbs ^ n := Nat.le_self_pow hn _
      -- The lowest bit.
      have hbit : Exactly (if n % 2 = 1 then acc * x else acc)
          (if n % 2 = 1 then b * a else b : ℤ) := by
        by_cases hodd : n % 2 = 1
        · rw [if_pos hodd, if_pos hodd]
          refine hacc.mul_int hx ?_
          rw [Int.natAbs_mul]
          exact (Nat.mul_le_mul_left _ hself).trans_lt hmul
        · rw [if_neg hodd, if_neg hodd]
          exact hacc
      by_cases hhalf : n / 2 = 0
      · rw [hhalf, pow_zero, mul_one, Scalar.powLoop, if_pos rfl]
        exact hbit
      -- The bits above it.
      have hsquare : (a * a).natAbs ^ (n / 2) ≤ a.natAbs ^ n := by
        rw [Int.natAbs_mul]
        exact sq_pow_half_le _ hhalf
      have hfits : (a * a).natAbs < 2 ^ 53 :=
        (Nat.le_self_pow hhalf _).trans_lt (hsquare.trans_lt hpow)
      have habs : (if n % 2 = 1 then b * a else b).natAbs =
          if n % 2 = 1 then b.natAbs * a.natAbs else b.natAbs := by
        rw [apply_ite Int.natAbs, Int.natAbs_mul]
      refine ih (n / 2) (by omega) hbit (hx.mul_int hx hfits) (hsquare.trans_lt hpow) ?_
      rw [habs, Int.natAbs_mul, mul_pow_halves]
      exact hmul

/-- Zero and the units: only the last bit of the exponent counts. -/
theorem pow_eq_ite_abs (ha : a.natAbs ≤ 1) (hn : n ≠ 0) :
    a ^ n = if n % 2 = 0 then |a| else a := by
  obtain rfl | rfl | rfl : a = 0 ∨ a = 1 ∨ a = -1 := by omega
  · rw [zero_pow hn, abs_zero, ite_self]
  · rw [one_pow, abs_one, ite_self]
  · rw [abs_neg, abs_one]
    split
    · next heven => exact Even.neg_one_pow (Nat.even_iff.mpr heven)
    · next hodd => exact Odd.neg_one_pow (Nat.odd_iff.mpr (by omega))

/-- A power with an exponent of more than 31 bits is exact, if it is one of
zero or a unit. -/
theorem hugePow_int (hx : Exactly x a) (ha : a.natAbs ≤ 1) (hn : n ≠ 0) :
    Exactly (Binary64.hugePow x n) (a ^ n : ℤ) := by
  have hzero : Exactly (0 : Float) (0 : ℤ) := by
    exact_mod_cast exactly_ofNat (n := 0) (by norm_num)
  have hone : Exactly (1 : Float) (1 : ℤ) := by
    exact_mod_cast exactly_ofNat (n := 1) (by norm_num)
  have habs : Exactly x.abs (|a| : ℤ) := by
    rw [Int.cast_abs]
    exact hx.abs
  have hspecial : (x == 0 || x.abs == 1) = true := by
    rw [Bool.or_eq_true]
    by_cases h : a = 0
    · exact Or.inl ((hx.beq_iff hzero).mpr (by exact_mod_cast h))
    · have hunit : |a| = 1 := by
        rw [Int.abs_eq_natAbs]
        omega
      exact Or.inr ((habs.beq_iff hone).mpr (by exact_mod_cast hunit))
  rw [Binary64.hugePow, if_pos hspecial, pow_eq_ite_abs ha hn]
  split
  · exact habs
  · exact hx

/-- **A power that fits is exact.** -/
theorem pow_int (hx : Exactly x a) (h : a.natAbs ^ n < 2 ^ 53) :
    Exactly (Scalar.pow x n) (a ^ n : ℤ) := by
  have hone : Exactly (Scalar.one : Float) (1 : ℤ) := by
    exact_mod_cast exactly_ofNat (n := 1) (by norm_num)
  by_cases hn : n ≤ Scalar.maxSquaredExponent
  · rw [Scalar.pow, if_pos hn, ← one_mul (a ^ n)]
    exact hone.powLoop_int hx h (by rwa [Int.natAbs_one, one_mul])
  · have ha : a.natAbs ≤ 1 := by
      by_contra htwo
      have hn' : 53 ≤ n := by
        have hmax : Scalar.maxSquaredExponent = 2 ^ 31 - 1 := rfl
        omega
      exact absurd h (not_lt.mpr (calc
        2 ^ 53 ≤ a.natAbs ^ 53 := Nat.pow_le_pow_left (by omega) 53
        _ ≤ a.natAbs ^ n := Nat.pow_le_pow_right (by omega) hn'))
    rw [Scalar.pow, if_neg hn]
    exact hx.hugePow_int ha (by omega)

end Exactly

end Binary64

end Univariate
