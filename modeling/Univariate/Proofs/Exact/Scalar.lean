import Mathlib
import Univariate.Dense
import Univariate.Proofs.Powers

/-!
# Arithmetic without rounding

Every ordered field is a scalar: the comparisons decide the order, every
element is finite, and powers are powers.  With it the definitions that run
on binary numbers become statements about the rationals or the reals.  The
instance is scoped, so that nothing changes where exact arithmetic is not
the subject.

* `Exact.scalar` — the instance;
* `Exact.max_eq` — the larger of two is that of the order;
* `Exact.pow_eq` — square and multiply comes to the power;
* `Exact.gcdTolerance_eq`, `Exact.minNormal_le_one` — the constants;
* `Exact.abs_le_norm`, `Exact.norm_le_iff`, `Exact.norm_lt_iff` — the norm
  of a polynomial.
-/

namespace Univariate

namespace Exact

variable {α : Type} [Field α] [LinearOrder α]

/-- Arithmetic without rounding. -/
scoped instance scalar : Scalar α where
  toAdd := inferInstance
  toSub := inferInstance
  toMul := inferInstance
  toDiv := inferInstance
  toNeg := inferInstance
  ofNat n := n
  abs x := |x|
  lt x y := decide (x < y)
  le x y := decide (x ≤ y)
  eq x y := decide (x = y)
  isFinite _ := true
  sortsLE x y := decide (x ≤ y)
  hugePow x n := x ^ n

/-- Natural numbers are those of the field. -/
@[simp] theorem ofNat_eq (n : ℕ) : (Scalar.ofNat n : α) = n := rfl

@[simp] theorem zero_eq : (Scalar.zero : α) = 0 := Nat.cast_zero

@[simp] theorem one_eq : (Scalar.one : α) = 1 := Nat.cast_one

@[simp] theorem abs_eq (x : α) : Scalar.abs x = |x| := rfl

/-- Comparisons decide the order. -/
@[simp] theorem lt_eq (x y : α) : Scalar.lt x y = decide (x < y) := rfl

@[simp] theorem le_eq (x y : α) : Scalar.le x y = decide (x ≤ y) := rfl

/-- Equality is decided. -/
@[simp] theorem eq_eq (x y : α) : Scalar.eq x y = decide (x = y) := rfl

@[simp] theorem isFinite_eq (x : α) : Scalar.isFinite x = true := rfl

/-- Every element is a number, so the larger one is the larger one. -/
@[simp] theorem max_eq (x y : α) : Scalar.max x y = max x y := by
  unfold Scalar.max
  by_cases h : x < y
  · simp [h, h.le]
  · simp [h, le_of_not_gt h]

/-! ## Powers -/

/-- **Square and multiply** comes to the power, times what it starts from. -/
theorem powLoop_eq (acc x : α) (n : ℕ) : Scalar.powLoop acc x n = acc * x ^ n := by
  fun_induction Scalar.powLoop acc x n with
  | case1 acc x => rw [pow_zero, mul_one]
  | case2 acc x n hn ih =>
      rw [dite_eq_ite] at ih
      rw [ih, mul_pow_halves]

/-- Powers are powers, whichever way the exponent is taken. -/
theorem pow_eq (x : α) (n : ℕ) : Scalar.pow x n = x ^ n := by
  rw [Scalar.pow, powLoop_eq, one_eq, one_mul]
  exact ite_self _

/-! ## Tolerances -/

section Tolerance

variable [IsStrictOrderedRing α]

/-- A billionth. -/
theorem gcdTolerance_eq : (Scalar.gcdTolerance : α) = 1 / 10 ^ 9 := by
  rw [Scalar.gcdTolerance, one_eq, ofNat_eq, Nat.pow_eq]
  norm_num

/-- The tolerance of the greatest common divisor is positive. -/
theorem gcdTolerance_pos : (0 : α) < Scalar.gcdTolerance := by
  rw [gcdTolerance_eq]
  positivity

/-- The smallest normal number is no larger than one. -/
theorem minNormal_le_one : (Scalar.minNormal : α) ≤ 1 := by
  unfold Scalar.minNormal
  generalize 1022 = n
  rw [one_eq, ofNat_eq, Nat.pow_eq]
  exact div_le_one_of_le₀ (Nat.one_le_cast.mpr Nat.one_le_two_pow) (Nat.cast_nonneg _)

end Tolerance

/-! ## Norms -/

section Norm

section Largest

variable {β γ : Type} [LinearOrder γ] (f : β → γ)

/-- The largest value is no smaller than what the search starts from. -/
theorem le_foldl_max (xs : List β) (largest : γ) :
    largest ≤ xs.foldl (fun m x => max m (f x)) largest := by
  induction xs generalizing largest with
  | nil => exact le_rfl
  | cons x xs ih => exact (le_max_left _ _).trans (ih _)

/-- The largest value lies within a bound if all values do. -/
theorem foldl_max_le_iff (xs : List β) (largest bound : γ) :
    xs.foldl (fun m x => max m (f x)) largest ≤ bound ↔
      largest ≤ bound ∧ ∀ x ∈ xs, f x ≤ bound := by
  induction xs generalizing largest with
  | nil => simp
  | cons x xs ih => rw [List.foldl_cons, ih, max_le_iff, List.forall_mem_cons, and_assoc]

/-- The largest value lies below a bound if all values do. -/
theorem foldl_max_lt_iff (xs : List β) (largest bound : γ) :
    xs.foldl (fun m x => max m (f x)) largest < bound ↔
      largest < bound ∧ ∀ x ∈ xs, f x < bound := by
  induction xs generalizing largest with
  | nil => simp
  | cons x xs ih => rw [List.foldl_cons, ih, max_lt_iff, List.forall_mem_cons, and_assoc]

end Largest

/-- The norm is the largest magnitude. -/
theorem norm_eq (p : Dense α) : p.norm = p.foldl (fun m c => max m |c|) 0 := by
  simp [Dense.norm, Scalar.maxAbs]

/-- The norm lies below a bound if all magnitudes do. -/
theorem norm_lt_iff {p : Dense α} {bound : α} (hbound : 0 < bound) :
    p.norm < bound ↔ ∀ c ∈ p, |c| < bound := by
  rw [norm_eq, foldl_max_lt_iff]
  exact and_iff_right hbound

/-- The norm lies within a bound if all magnitudes do. -/
theorem norm_le_iff {p : Dense α} {bound : α} (hbound : 0 ≤ bound) :
    p.norm ≤ bound ↔ ∀ c ∈ p, |c| ≤ bound := by
  rw [norm_eq, foldl_max_le_iff]
  exact and_iff_right hbound

/-- Norms are not negative. -/
theorem norm_nonneg (p : Dense α) : 0 ≤ p.norm := by
  rw [norm_eq]
  exact le_foldl_max _ p 0

/-- No coefficient is larger than the norm. -/
theorem abs_le_norm {p : Dense α} {c : α} (hc : c ∈ p) : |c| ≤ p.norm :=
  (norm_le_iff (norm_nonneg p)).mp le_rfl c hc

end Norm

end Exact

end Univariate
