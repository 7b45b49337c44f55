import Univariate.Proofs.Roots.Taylor
import Univariate.Proofs.Squarefree.PerfectPower

/-!
# Two close roots

The decomposition trims remainders at a tolerance of its own.  Two roots
`0` and `2h` with `h²` below that tolerance are taken for a double root
halfway between them, however small the distance within which roots are
merged later.  Around that point the polynomial is `x² - h²`, from which the
distance of its roots can be read off, so that a tolerance below `h` does not
confirm the double root.

* `Squarefree.decompose_closePair` — the decomposition;
* `Roots.find_closePair` — the two roots, found exactly;
* `Multiplicity.isUnconfirmed_closePair` — the double root.
-/

namespace Univariate

open scoped Exact

/-! ## The decomposition -/

namespace Squarefree

variable {α : Type} [Field α] [LinearOrder α] {h : α}

/-- The polynomial with the roots `0` and `2h`. -/
def closePair (h : α) : Dense α := [0, -(h + h), 1]

/-- The pair has a leading one. -/
theorem makeMonic_closePair (h : α) : Dense.makeMonic (closePair h) = closePair h := by
  simp [Dense.makeMonic, closePair]

/-- The slope of the pair. -/
theorem derivative_closePair (h : α) : Dense.derivative (closePair h) = [-(h + h)] ++ [2] := by
  simp [Dense.derivative, Dense.derivativeFrom, closePair]

/-- Division by `x - h` leaves what the polynomial is there. -/
theorem divRem_closePair (h : α) :
    Dense.divRem (closePair h) [-h, 1] = ([-h, 1], [-(h * h)]) := by
  simp [Dense.divRem, Dense.divSteps, Dense.subScaled, closePair]

variable [IsStrictOrderedRing α]

theorem abs_twice (h : α) : |-h + -h| = 2 * |h| := by
  rw [← two_mul, abs_mul, abs_two, abs_neg]

/-- Roots as close as that are below one. -/
theorem abs_lt_one_of_small (hsmall : h ^ 2 ≤ 1 / 10 ^ 9) : |h| < 1 := by
  rw [← sq_lt_one_iff_abs_lt_one]
  exact hsmall.trans_lt (by norm_num)

/-- The mean of the two roots is taken for a root. -/
theorem remainder_closePair (hsmall : h ^ 2 ≤ 1 / 10 ^ 9) :
    Dense.remainder (closePair h) [-h, 1] = [] := by
  rw [Dense.remainder, divRem_closePair, Dense.trim_of_forall]
  · rfl
  · rw [List.forall_mem_singleton, abs_neg, abs_mul_self, ← pow_two, Exact.gcdTolerance_eq,
      Exact.max_eq, Exact.one_eq]
    exact hsmall.trans (le_mul_of_one_le_right (by positivity) (le_max_right _ _))

/-- **For close roots the slope passes for a divisor**, as the remainder is
negligible. -/
theorem commonDivisor_closePair (hsmall : h ^ 2 ≤ 1 / 10 ^ 9) :
    commonDivisor (closePair h) = [-h, 1] := by
  have hdouble : |-h + -h| < 10 ^ 9 * 2 := by
    rw [abs_twice]
    linarith [abs_lt_one_of_small hsmall]
  have hone : (1 : α) < 10 ^ 9 * 2 := by norm_num
  have hnine : (1 : α) < 10 ^ 9 := by norm_num
  have htolerance : Dense.inputTolerance (closePair h) ([-(h + h)] ++ [2]) < |(2 : α)| := by
    rw [Dense.inputTolerance_lt_iff, abs_two, closePair]
    refine ⟨(Exact.norm_lt_iff (by positivity)).mpr ?_, (Exact.norm_lt_iff (by positivity)).mpr ?_,
      Exact.minNormal_le_one.trans_lt (by norm_num)⟩
    · simpa using ⟨hdouble, hone⟩
    · simpa using ⟨hdouble, hnine⟩
  have hdivisor : Dense.firstDivisor (closePair h) ([-(h + h)] ++ [2]) = [-h, 1] := by
    rw [Dense.firstDivisor, Dense.trim_concat _ htolerance, Dense.makeMonic_concat two_ne_zero,
      (Dense.reduced_concat one_ne_zero).trim_zero, List.map_singleton,
      neg_div, add_self_div_two]
    rfl
  have hdividend : Dense.firstDividend (closePair h) = closePair h := by
    rw [Dense.firstDividend, makeMonic_closePair]
    exact (Dense.reduced_concat (p := [0, -(h + h)]) one_ne_zero).trim_zero
  rw [commonDivisor, makeMonic_closePair, derivative_closePair, Dense.gcd_eq, hdivisor, hdividend,
    Dense.gcdLoop, remainder_closePair hsmall, Dense.gcdLoop]
  simp [Dense.makeMonic]

/-- **Two close roots are taken for one**, halfway between them. -/
theorem decompose_closePair (hsmall : h ^ 2 ≤ 1 / 10 ^ 9) :
    decompose (closePair h) = [⟨[-h, 1], 2⟩] := by
  have hcommon := commonDivisor_closePair hsmall
  have hsimple : simplePart (closePair h) = [-h, 1] := by
    rw [simplePart, hcommon, makeMonic_closePair, Dense.quotient, divRem_closePair]
  have hslope : slopePart (closePair h) = [((1 + 1 : ℕ) : α)] := by
    rw [slopePart, hcommon, makeMonic_closePair, derivative_closePair, one_add_one_eq_two,
      Nat.cast_two]
    simp [Dense.quotient, Dense.divRem, Dense.divSteps]
  have habs : |h| < 10 ^ 9 := (abs_lt_one_of_small hsmall).trans (by norm_num)
  have hdegree : Dense.degree (commonDivisor (closePair h)) ≠ 0 := by
    rw [hcommon]
    exact one_ne_zero
  have hcount : passCount (closePair h) = 1 + 1 + 1 := by
    rw [passCount, makeMonic_closePair]
    rfl
  rw [decompose_eq, if_neg hdegree, hsimple, hslope, hcount, passes_linear habs]

end Squarefree

/-! ## The roots of the polynomial and of its factor -/

namespace Roots

variable {h : ℝ}

/-- Without the root at zero a linear polynomial is left. -/
theorem find_closePair (hne : h ≠ 0) (iterations : ℕ) :
    find (Squarefree.closePair h) iterations = .ok [Cplx.zero, Cplx.ofReal (2 * h)] := by
  simp [Squarefree.closePair, find, findNonzero, hne, two_mul]

/-- The root of that divisor lies midway between the two. -/
theorem find_closePair_factor (hne : h ≠ 0) (iterations : ℕ) :
    find [-h, 1] iterations = .ok [Cplx.ofReal h] := by
  simp [find, findNonzero, hne]

end Roots

/-! ## The double root -/

namespace Multiplicity

open Polynomial

/-- **The double root is not confirmed** within less than the distance of
each of the two roots from it. -/
theorem isUnconfirmed_closePair {h ε : ℝ} (hpos : 0 < h) (hε : ε < h) :
    isUnconfirmed (Squarefree.closePair h) ε ⟨Cplx.ofReal h, 2⟩ = true := by
  have haround : around (Squarefree.closePair h) (Cplx.ofReal h) = X ^ 2 - C ((h : ℂ) ^ 2) := by
    simp only [around, Squarefree.closePair, Cplx.toComplex_ofReal, Dense.toPolynomial_cons,
      Dense.toPolynomial_nil, map_zero, map_neg, map_one, mul_zero, add_zero, mul_one,
      zero_add, Polynomial.map_mul, Polynomial.map_add, Polynomial.map_neg, map_X, map_C,
      Complex.coe_algebraMap, taylor_mul, taylor_X, taylor_C, map_add, map_pow]
    ring
  have hlead : ‖(around (Squarefree.closePair h) (Cplx.ofReal h)).coeff 2‖ = 1 := by
    rw [haround, coeff_sub, coeff_X_pow, coeff_C, if_pos rfl, if_neg two_ne_zero, sub_zero,
      norm_one]
  have hconstant : ‖(around (Squarefree.closePair h) (Cplx.ofReal h)).coeff 0‖ = h ^ 2 := by
    rw [haround, coeff_sub, coeff_X_pow, coeff_C_zero, if_neg two_ne_zero.symm, zero_sub, norm_neg,
      norm_pow, Complex.norm_of_nonneg hpos.le]
  have hnorm : (Cplx.ofReal h).norm = h := by
    rw [Cplx.norm_eq, Cplx.toComplex_ofReal, Complex.norm_of_nonneg hpos.le]
  have htwice : |-h + -h| = 2 * h := by
    rw [Squarefree.abs_twice, abs_of_pos hpos]
  have hallowance : allowance (Squarefree.closePair h) (Cplx.ofReal h) 0 ≤ h ^ 2 / 2 := by
    rw [allowance, hnorm, taylor_coeff_zero]
    norm_num [Squarefree.closePair, roundingShare, taylorUlps, Scalar.epsilon, htwice]
    nlinarith [sq_nonneg h]
  have hexceeds : exceeds (clusterRadius (Squarefree.closePair h) (Cplx.ofReal h) 2) ε = true := by
    cases hradius : clusterRadius (Squarefree.closePair h) (Cplx.ofReal h) 2 with
    | none => rfl
    | some radius =>
        obtain ⟨hnonneg, -, hlower⟩ := coeff_le_of_clusterRadius hradius
        have hzero := hlower 0 two_pos
        rw [hlead, hconstant, one_mul, tsub_zero] at hzero
        have hle : h ≤ radius := by
          refine (sq_le_sq₀ hpos.le hnonneg).mp ?_
          linarith [sq_nonneg h, sq_nonneg radius, div_pow radius 2 2]
        exact decide_eq_true (hε.trans_le hle)
  rw [isUnconfirmed, hexceeds]
  rfl

end Multiplicity

end Univariate
