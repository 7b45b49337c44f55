import Univariate.Proofs.Exact.Scalar
import Univariate.Cplx

/-!
# The real functions

Over the reals root finding gets what it asks for beyond arithmetic: the
powers with fractional exponents, the length of a hypotenuse, the number pi,
and the sine and cosine.  Pairs of reals are then the complex numbers, and a
factor that is real can be taken out of sums, products and magnitudes.

* `Exact.real` — the instance;
* `Exact.scale_div_scale` — a common factor cancels;
* `Exact.norm_scale`, `Exact.norm_scale_eq_zero_iff` — the magnitude.
-/

namespace Univariate

namespace Exact

/-! ## A real factor -/

section Scale

variable {α : Type} [Field α] [LinearOrder α]

theorem zero_scale (k : α) : (Cplx.zero : Cplx α).scale k = Cplx.zero := by
  simp [Cplx.zero, Cplx.scale]

/-- A common factor may be taken out of a sum. -/
theorem scale_add (z w : Cplx α) (k : α) : z.scale k + w.scale k = (z + w).scale k :=
  congrArg₂ Cplx.mk (add_mul z.re w.re k).symm (add_mul z.im w.im k).symm

/-- A factor may be taken out of a product. -/
theorem scale_mul (z w : Cplx α) (k : α) : z.scale k * w = (z * w).scale k :=
  congrArg₂ Cplx.mk
    (show z.re * k * w.re - z.im * k * w.im = (z.re * w.re - z.im * w.im) * k by ring)
    (show z.re * k * w.im + z.im * k * w.re = (z.re * w.im + z.im * w.re) * k by ring)

/-- A common factor may be taken out of a sum with a real number. -/
theorem scale_addReal (z : Cplx α) (x k : α) :
    (z.scale k).addReal (k * x) = (z.addReal x).scale k :=
  congrArg₂ Cplx.mk (show z.re * k + k * x = (z.re + x) * k by ring) rfl

/-- A product of real numbers is a multiple of the one. -/
theorem ofReal_mul (k x : α) : Cplx.ofReal (k * x) = (Cplx.ofReal x).scale k :=
  congrArg₂ Cplx.mk (mul_comm k x) (by simp [Cplx.ofReal])

/-- The square of the magnitude grows with the square of the factor. -/
theorem normSq_scale (z : Cplx α) (k : α) : (z.scale k).normSq = z.normSq * (k * k) := by
  simp only [Cplx.normSq, Cplx.scale]
  ring

/-- **A common factor cancels.** -/
theorem scale_div_scale {k : α} (hk : k ≠ 0) (z w : Cplx α) : z.scale k / w.scale k = z / w := by
  have hre : z.re * k * (w.re * k) + z.im * k * (w.im * k) =
      (z.re * w.re + z.im * w.im) * (k * k) := by ring
  have him : z.im * k * (w.re * k) - z.re * k * (w.im * k) =
      (z.im * w.re - z.re * w.im) * (k * k) := by ring
  refine congrArg₂ Cplx.mk ?_ ?_
  · rw [normSq_scale, Cplx.scale, Cplx.scale, hre]
    exact mul_div_mul_right _ _ (mul_ne_zero hk hk)
  · rw [normSq_scale, Cplx.scale, Cplx.scale, him]
    exact mul_div_mul_right _ _ (mul_ne_zero hk hk)

end Scale

/-! ## The reals -/

/-- The real functions. -/
noncomputable scoped instance real : Analytic ℝ where
  toScalar := scalar
  root x k := x ^ (1 / (k : ℝ))
  hypot x y := √(x ^ 2 + y ^ 2)
  pi := Real.pi
  sin := Real.sin
  cos := Real.cos

/-- The magnitude, by the two parts. -/
theorem norm_def (z : Cplx ℝ) : z.norm = √(z.re ^ 2 + z.im ^ 2) := rfl

/-- **The magnitude** of a multiple. -/
theorem norm_scale (z : Cplx ℝ) (k : ℝ) : (z.scale k).norm = |k| * z.norm := by
  have hsquares : (z.re * k) ^ 2 + (z.im * k) ^ 2 = k ^ 2 * (z.re ^ 2 + z.im ^ 2) := by ring
  rw [norm_def, norm_def, Cplx.scale, hsquares, Real.sqrt_mul (sq_nonneg k), Real.sqrt_sq_eq_abs]

/-- A multiple has no magnitude only where there was none. -/
theorem norm_scale_eq_zero_iff {k : ℝ} (hk : k ≠ 0) (z : Cplx ℝ) :
    (z.scale k).norm = 0 ↔ z.norm = 0 := by
  rw [norm_scale, mul_eq_zero, or_iff_right (abs_ne_zero.mpr hk)]

end Exact

end Univariate
