import Mathlib
import Univariate.Proofs.Exact.Reals

/-!
# Pairs of reals are complex numbers

Over the reals the pairs that root finding computes with are the complex
numbers, their operations are those of the complex numbers, and the
magnitude is the norm.  So a bound on a distance may be taken over to the
complex plane, where the triangle inequality and all else about norms is at
hand.

* `Cplx.toComplex` — the complex number with these parts;
* `Cplx.toComplex_pow` — powers by repeated squaring;
* `Cplx.norm_eq`, `Cplx.norm_sub` — the magnitude, and the distance.
-/

namespace Univariate

namespace Cplx

open scoped Exact ComplexConjugate

/-- The complex number with these parts. -/
def toComplex (z : Cplx ℝ) : ℂ := ⟨z.re, z.im⟩

/-- Different pairs are different complex numbers. -/
theorem toComplex_injective : Function.Injective toComplex := by
  intro z w h
  exact congrArg₂ mk (congrArg Complex.re h) (congrArg Complex.im h)

@[simp] theorem toComplex_re (z : Cplx ℝ) : z.toComplex.re = z.re := rfl

@[simp] theorem toComplex_im (z : Cplx ℝ) : z.toComplex.im = z.im := rfl

/-- The pair of zeros is zero. -/
@[simp] theorem toComplex_zero : (zero : Cplx ℝ).toComplex = 0 :=
  Complex.ext Exact.zero_eq Exact.zero_eq

/-- A real number is the complex one. -/
@[simp] theorem toComplex_ofReal (x : ℝ) : (ofReal x).toComplex = x :=
  Complex.ext rfl Exact.zero_eq

/-- Sums are sums. -/
@[simp] theorem toComplex_add (z w : Cplx ℝ) : (z + w).toComplex = z.toComplex + w.toComplex := rfl

/-- Differences are differences. -/
@[simp] theorem toComplex_sub (z w : Cplx ℝ) : (z - w).toComplex = z.toComplex - w.toComplex := rfl

/-- Products are products. -/
@[simp] theorem toComplex_mul (z w : Cplx ℝ) : (z * w).toComplex = z.toComplex * w.toComplex :=
  rfl

/-- Conjugates are conjugates. -/
@[simp] theorem toComplex_conj (z : Cplx ℝ) : z.conj.toComplex = conj z.toComplex := rfl

/-- Adding a real number adds it. -/
theorem toComplex_addReal (z : Cplx ℝ) (x : ℝ) : (z.addReal x).toComplex = z.toComplex + x :=
  Complex.ext rfl (add_zero z.im).symm

/-- An odd exponent on the way, with its lowest bit in `acc`. -/
theorem toComplex_powOdd (acc base : Cplx ℝ) (e : ℕ) :
    (powOdd acc base e).toComplex =
      acc.toComplex * (base.toComplex * base.toComplex) ^ (e / 2) := by
  fun_induction powOdd acc base e with
  | case1 acc base e he => rw [Nat.div_eq_of_lt (by omega), pow_zero, mul_one]
  | case2 acc base e he square ih =>
      rw [dite_eq_ite] at ih
      rw [ih, apply_ite toComplex, toComplex_mul, toComplex_mul base base, mul_pow_halves]

/-- **Powers** are powers. -/
theorem toComplex_pow (z : Cplx ℝ) (e : ℕ) : (z.pow e).toComplex = z.toComplex ^ e := by
  fun_induction pow z e with
  | case1 z => exact Complex.ext Exact.one_eq Exact.zero_eq
  | case2 z e he heven ih =>
      have hhalves := mul_pow_halves 1 z.toComplex e
      rw [if_neg (by omega), one_mul, one_mul] at hhalves
      rw [ih, toComplex_mul, hhalves]
  | case3 z e he hodd =>
      have hhalves := mul_pow_halves 1 z.toComplex e
      rw [if_pos (by omega), one_mul, one_mul] at hhalves
      rw [toComplex_powOdd, hhalves]

/-- **The magnitude** is the norm. -/
theorem norm_eq (z : Cplx ℝ) : z.norm = ‖z.toComplex‖ := by
  rw [Exact.norm_def, Complex.norm_eq_sqrt_sq_add_sq]
  rfl

/-- The magnitude of a difference is the distance. -/
theorem norm_sub (z w : Cplx ℝ) : (z - w).norm = dist z.toComplex w.toComplex := by
  rw [norm_eq, toComplex_sub, dist_eq_norm]

/-- Magnitudes are not negative. -/
theorem norm_nonneg (z : Cplx ℝ) : 0 ≤ z.norm := Real.sqrt_nonneg _

/-- A bound of the magnitude without a root in it. -/
theorem norm_le_iff {ε : ℝ} (hε : 0 ≤ ε) (z : Cplx ℝ) :
    z.norm ≤ ε ↔ z.re ^ 2 + z.im ^ 2 ≤ ε ^ 2 := Real.sqrt_le_left hε

end Cplx

end Univariate
