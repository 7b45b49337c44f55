import Univariate.Proofs.Squarefree.Decomposition

/-!
# Powers of a linear polynomial

The derivative of `(x - r) ^ m` has the leading coefficient `m`, however
large the others are.  The greatest common divisor takes it for a zero
once the largest coefficient of the two reaches a billion times `m`; below
that the derivative divides the polynomial, and the decomposition finds the
one factor `x - r` in the pass that belongs to its multiplicity.

* `Dense.linearPower` — the coefficients of `(x - r) ^ m`;
* `Dense.inputTolerance_linearPower_lt_iff` — when the leading
  coefficient is kept;
* `Dense.gcd_linearPower_iff` — that is when the common divisor is
  found;
* `Squarefree.passes_linear` — the passes before the multiplicity and the
  last one;
* `Squarefree.decompose_linearPower` — the decomposition.
-/

namespace Univariate

namespace Dense

open Polynomial
open scoped Exact

variable {α : Type} [Field α]

/-! ## The coefficients -/

/-- The coefficients of `(x - r) ^ m`. -/
def linearPower (r : α) (m : ℕ) : Dense α :=
  (List.range (m + 1)).map fun j => (-r) ^ (m - j) * (m.choose j : α)

@[simp] theorem length_linearPower (r : α) (m : ℕ) : (linearPower r m).length = m + 1 := by
  simp [linearPower]

theorem linearPower_ne_nil (r : α) (m : ℕ) : linearPower r m ≠ [] :=
  List.ne_nil_of_length_eq_add_one (length_linearPower r m)

/-- The list has the coefficients of the power. -/
theorem toPolynomial_linearPower (r : α) (m : ℕ) :
    toPolynomial (linearPower r m) = (X - C r) ^ m := by
  ext j
  rw [coeff_toPolynomial, sub_eq_add_neg, ← C_neg, coeff_X_add_C_pow]
  by_cases hj : j < m + 1
  · simp [linearPower, hj]
  · rw [List.getD_eq_default _ _ (by rw [length_linearPower]; omega),
      Nat.choose_eq_zero_of_lt (by omega), Nat.cast_zero, mul_zero]

theorem monic_linearPower (r : α) (m : ℕ) : (toPolynomial (linearPower r m)).Monic := by
  rw [toPolynomial_linearPower]
  exact (monic_X_sub_C r).pow m

theorem reduced_linearPower (r : α) (m : ℕ) : Reduced (linearPower r m) := by
  refine reduced_of_length_le (monic_linearPower r m).ne_zero ?_
  rw [length_linearPower, toPolynomial_linearPower, natDegree_pow, natDegree_X_sub_C, mul_one]

/-- A binomial coefficient and a power of the root at every place. -/
theorem mem_linearPower (r : α) {m j : ℕ} (hj : j ≤ m) :
    (-r) ^ (m - j) * (m.choose j : α) ∈ linearPower r m :=
  List.mem_map.mpr ⟨j, List.mem_range.mpr (Nat.lt_succ_of_le hj), rfl⟩

/-- The first power, as it is written. -/
theorem linear_eq (r : α) : ([-r, 1] : Dense α) = linearPower r 1 := by
  simp [linearPower, List.range_succ]

/-- The coefficients are those below the leading one, and one. -/
theorem linearPower_eq_concat (r : α) (m : ℕ) :
    linearPower r m =
      ((List.range m).map fun j => (-r) ^ (m - j) * (m.choose j : α)) ++ [1] := by
  simp [linearPower, List.range_succ]

/-! ## The derivative -/

variable [LinearOrder α]

/-- The slope of a power of a linear polynomial is a multiple of the power
before. -/
theorem toPolynomial_derivative_linearPower (r : α) (m : ℕ) :
    toPolynomial (derivative (linearPower r m)) = C (m : α) * (X - C r) ^ (m - 1) := by
  rw [toPolynomial_derivative, toPolynomial_linearPower, derivative_X_sub_C_pow]

/-- The derivative has the leading coefficient `m`. -/
theorem exists_derivative_linearPower (r : α) {m : ℕ} (hm : 0 < m) :
    ∃ lower, derivative (linearPower r m) = lower ++ [(m : α)] ∧ lower.length < m := by
  have hconcat := derivative_concat
    ((List.range m).map fun j => (-r) ^ (m - j) * (m.choose j : α))
    (by simpa using hm.ne') 1
  rw [← linearPower_eq_concat, one_mul, List.length_map, List.length_range] at hconcat
  refine ⟨_, hconcat, ?_⟩
  rw [length_derivative, List.length_map, List.length_range]
  exact Nat.sub_lt hm one_pos

/-! ## The tolerance of the first test -/

variable [IsStrictOrderedRing α]

/-- The larger one of the norms of `(x - r) ^ m` and of its derivative. -/
def linearPowerScale (r : α) (m : ℕ) : α :=
  max (norm (linearPower r m)) (norm (derivative (linearPower r m)))

/-- The leading coefficient is one. -/
theorem one_le_norm_linearPower (r : α) (m : ℕ) : 1 ≤ norm (linearPower r m) := by
  simpa using Exact.abs_le_norm (mem_linearPower r (le_refl m))

/-- **When the leading coefficient is kept.** -/
theorem inputTolerance_linearPower_lt_iff (r : α) (m : ℕ) :
    inputTolerance (linearPower r m) (derivative (linearPower r m)) < |(m : α)| ↔
      linearPowerScale r m < 10 ^ 9 * m := by
  rw [inputTolerance_lt_iff, Nat.abs_cast, linearPowerScale, max_lt_iff, ← and_assoc,
    and_iff_left_iff_imp]
  exact fun h => (Exact.minNormal_le_one.trans (one_le_norm_linearPower r m)).trans_lt h.1

/-- With the leading coefficient kept, the root is smaller than a
billion. -/
theorem abs_lt_of_scale_lt {r : α} {m : ℕ} (hm : 0 < m)
    (h : linearPowerScale r m < 10 ^ 9 * m) : |r| < 10 ^ 9 := by
  have hmem := Exact.abs_le_norm (mem_linearPower r (Nat.sub_le m 1))
  rw [Nat.sub_sub_self hm, pow_one, Nat.choose_symm hm, Nat.choose_one_right, abs_mul, abs_neg,
    Nat.abs_cast] at hmem
  have hlt : |r| * m < 10 ^ 9 * m := (hmem.trans (le_max_left _ _)).trans_lt h
  exact lt_of_mul_lt_mul_right hlt (Nat.cast_nonneg m)

/-! ## The greatest common divisor with the derivative -/

/-- **The slope, made monic, is the power before.** -/
theorem makeMonic_derivative_linearPower (r : α) {m : ℕ} (hm : 0 < m) :
    makeMonic (derivative (linearPower r m)) = linearPower r (m - 1) := by
  have hlead : (m : α) ≠ 0 := Nat.cast_ne_zero.mpr hm.ne'
  obtain ⟨lower, hlower, -⟩ := exists_derivative_linearPower r hm
  have hreduced : Reduced (derivative (linearPower r m)) := hlower ▸ reduced_concat hlead
  refine (reduced_makeMonic hreduced).ext (reduced_linearPower r (m - 1)) ?_
  rw [hreduced.toPolynomial_makeMonic, toPolynomial_derivative_linearPower,
    toPolynomial_linearPower, leadingCoeff_mul, leadingCoeff_C,
    ((monic_X_sub_C r).pow _).leadingCoeff, mul_one, ← mul_assoc, ← C_mul,
    inv_mul_cancel₀ hlead, C_1, one_mul]

/-- **When the common divisor is found.** -/
theorem gcd_linearPower_iff (r : α) {m : ℕ} (hm : 0 < m) :
    gcd (linearPower r m) (derivative (linearPower r m)) = linearPower r (m - 1) ↔
      linearPowerScale r m < 10 ^ 9 * m := by
  obtain ⟨lower, hlower, hlength⟩ := exists_derivative_linearPower r hm
  rw [← inputTolerance_linearPower_lt_iff]
  constructor
  · intro hgcd
    -- Without its leading coefficient the derivative is too short.
    by_contra hdropped
    have hshort : (trim (derivative (linearPower r m)) (inputTolerance (linearPower r m)
        (derivative (linearPower r m)))).length ≤ m - 1 := by
      have hle := length_trim_concat_le lower (not_lt.mp hdropped)
      rw [← hlower] at hle
      exact hle.trans (Nat.le_sub_one_of_lt hlength)
    rcases length_gcd_le _ hshort with hall | hle
    · have hsame := congrArg List.length (hgcd.symm.trans hall)
      rw [length_makeMonic, firstDividend, (reduced_makeMonic (reduced_linearPower r m)).trim_zero,
        length_makeMonic, length_linearPower, length_linearPower] at hsame
      omega
    · rw [hgcd, length_linearPower] at hle
      omega
  · intro hkept
    have hdvd : toPolynomial (derivative (linearPower r m)) ∣ toPolynomial (linearPower r m) := by
      rw [toPolynomial_derivative_linearPower, toPolynomial_linearPower,
        (isUnit_C.mpr (Nat.cast_ne_zero.mpr hm.ne').isUnit).mul_left_dvd]
      exact pow_dvd_pow _ (Nat.sub_le m 1)
    rw [← makeMonic_derivative_linearPower r hm]
    rw [hlower] at hkept hdvd ⊢
    exact gcd_of_dvd lower (reduced_linearPower r m) hkept hdvd

end Dense

namespace Squarefree

open Univariate.Dense (toPolynomial Reduced linearPower linearPowerScale)
open scoped Exact

variable {α : Type} [Field α] [LinearOrder α]

/-! ## The passes -/

theorem derivative_linear (r : α) : Dense.derivative [-r, 1] = [(1 : α)] := by
  simp [Dense.derivative, Dense.derivativeFrom]

/-- For a linear polynomial the difference is a constant. -/
theorem difference_linear (r c : α) : difference [-r, 1] [c] = [c - 1] := by
  rw [difference, derivative_linear, Dense.sub, Dense.sub]

variable [IsStrictOrderedRing α]

/-- A small constant has a small norm. -/
theorem norm_const_lt {c bound : α} (hc : 0 < c) (hbound : c < bound) :
    Dense.norm [c] < bound :=
  (Exact.norm_lt_iff (hc.trans hbound)).mpr (by simpa [abs_of_pos hc] using hbound)

/-- A linear polynomial and a constant have no divisor in common. -/
theorem gcd_linear_const {r c : α} (hr : |r| < 10 ^ 9) (hc : 1 ≤ c) :
    Dense.gcd [-r, 1] [c] = ([1] : Dense α) := by
  have hpositive : 0 < c := one_pos.trans_le hc
  have hroot : |r| < 10 ^ 9 * c := by linarith
  have hone : 1 < 10 ^ 9 * c := by linarith
  have htolerance : Dense.inputTolerance [-r, 1] ([] ++ [c]) < |c| := by
    rw [Dense.inputTolerance_lt_iff, abs_of_pos hpositive]
    refine ⟨?_, norm_const_lt hpositive (by linarith), Exact.minNormal_le_one.trans_lt hone⟩
    exact (Exact.norm_lt_iff (one_pos.trans hone)).mpr (by simpa using ⟨hroot, hone⟩)
  have hgcd := Dense.gcd_of_dvd (p := [-r, 1]) [] (by simp [Reduced]) htolerance
    (by simpa using (Polynomial.isUnit_C.mpr hpositive.ne'.isUnit).dvd)
  rw [List.nil_append] at hgcd
  rw [hgcd]
  simp [Dense.makeMonic, hpositive.ne']

/-- **A pass before the last one** finds that the linear polynomial is not
the factor yet. -/
theorem pass_linear {r : α} (hr : |r| < 10 ^ 9) (k : ℕ) :
    pass [-r, 1] [((k + 2 : ℕ) : α)] = .divides [1] [-r, 1] [((k + 1 : ℕ) : α)] := by
  have hone : (1 : α) ≤ ((k + 1 : ℕ) : α) := by simp
  have hpositive : (0 : α) < ((k + 1 : ℕ) : α) := one_pos.trans_le hone
  have hdifference : difference [-r, 1] [((k + 2 : ℕ) : α)] = [((k + 1 : ℕ) : α)] := by
    rw [difference_linear]
    push_cast
    ring_nf
  have htolerance : passTolerance [-r, 1] [((k + 2 : ℕ) : α)] < |((k + 1 : ℕ) : α)| := by
    have hnext : ((k + 2 : ℕ) : α) = ((k + 1 : ℕ) : α) + 1 := by push_cast; ring
    rw [passTolerance_lt_iff, abs_of_pos hpositive, derivative_linear]
    exact ⟨norm_const_lt (by positivity) (by linarith), norm_const_lt one_pos (by linarith),
      by linarith⟩
  have hkept : ¬Dense.isNegligible (difference [-r, 1] [((k + 2 : ℕ) : α)])
      (passTolerance [-r, 1] [((k + 2 : ℕ) : α)]) = true := by
    rw [hdifference]
    simpa [Dense.isNegligible, Dense.negligible] using htolerance
  have htrimmed : trimmedDifference [-r, 1] [((k + 2 : ℕ) : α)] = [((k + 1 : ℕ) : α)] := by
    rw [trimmedDifference, hdifference]
    exact Dense.trim_concat [] htolerance
  rw [pass_of_kept hkept, htrimmed, gcd_linear_const hr hone, Dense.quotient_one,
    Dense.quotient_one]

/-- **The last pass.** -/
theorem pass_linear_last (r : α) : pass [-r, 1] [(1 : α)] = .vanishes := by
  rw [pass, difference_linear, sub_self, if_pos]
  simpa [Dense.isNegligible, Dense.negligible] using passTolerance_nonneg [-r, 1] [(1 : α)]

/-- **The passes** run the constant down to one. -/
theorem passes_linear {r : α} (hr : |r| < 10 ^ 9) (k more multiplicity : ℕ) :
    passes (k + more + 1) multiplicity [-r, 1] [((k + 1 : ℕ) : α)] =
      [⟨[-r, 1], multiplicity + k⟩] := by
  induction k generalizing multiplicity with
  | zero =>
      rw [passes_succ, Nat.cast_one, pass_linear_last]
      rfl
  | succ k ih =>
      rw [passes_succ, pass_linear hr]
      dsimp only
      rw [if_neg (by simp [Dense.degree]), Nat.add_right_comm, ih, Nat.add_assoc,
        Nat.add_comm 1]
      rfl

/-! ## The decomposition -/

/-- The polynomial and its derivative without what they have in common. -/
theorem parts_linearPower {r : α} {m : ℕ} (hm : 0 < m)
    (h : linearPowerScale r m < 10 ^ 9 * m) :
    commonDivisor (linearPower r m) = linearPower r (m - 1) ∧
      simplePart (linearPower r m) = [-r, 1] ∧ slopePart (linearPower r m) = [(m : α)] := by
  have hmonic : Dense.makeMonic (linearPower r m) = linearPower r m :=
    (Dense.reduced_linearPower r m).makeMonic_eq (Dense.monic_linearPower r m)
  have hcommon : commonDivisor (linearPower r m) = linearPower r (m - 1) := by
    rw [commonDivisor, hmonic]
    exact (Dense.gcd_linearPower_iff r hm).mpr h
  have hpower := Dense.reduced_linearPower r (m - 1)
  have hne := Dense.linearPower_ne_nil r (m - 1)
  refine ⟨hcommon, ?_, ?_⟩
  · rw [simplePart, hcommon, hmonic]
    refine Dense.quotient_eq hpower hne ?_ ?_
    · rw [Dense.length_linearPower, Dense.length_linearPower, List.length_cons,
        List.length_singleton]
      omega
    · rw [Dense.linear_eq, Dense.toPolynomial_linearPower, Dense.toPolynomial_linearPower,
        Dense.toPolynomial_linearPower, ← pow_add, Nat.add_sub_cancel' hm]
  · rw [slopePart, hcommon, hmonic]
    refine Dense.quotient_eq hpower hne ?_ ?_
    · rw [Dense.length_derivative, Dense.length_linearPower, Dense.length_linearPower,
        List.length_singleton]
      omega
    · rw [Dense.toPolynomial_derivative_linearPower, Dense.toPolynomial_linearPower]
      simp

/-- **Powers of a linear polynomial.**  The decomposition of `(x - r) ^ m`
is the one factor `x - r` with the multiplicity `m`, if the coefficients of
the power and of its derivative are below a billion times `m`.  This is
where the common divisor `(x - r) ^ (m - 1)` of the two is found: where it
is not, a coefficient has reached that size. -/
theorem decompose_linearPower (r : α) {m : ℕ} (hm : 2 ≤ m) :
    (linearPowerScale r m < 10 ^ 9 * m →
      decompose (linearPower r m) = [⟨[-r, 1], m⟩]) ∧
    (Dense.gcd (linearPower r m) (Dense.derivative (linearPower r m)) = linearPower r (m - 1) ↔
      linearPowerScale r m < 10 ^ 9 * m) := by
  have hpositive : 0 < m := by omega
  refine ⟨fun h => ?_, Dense.gcd_linearPower_iff r hpositive⟩
  obtain ⟨hcommon, hsimple, hslope⟩ := parts_linearPower hpositive h
  have hdegree : Dense.degree (commonDivisor (linearPower r m)) ≠ 0 := by
    rw [hcommon, Dense.degree, Dense.length_linearPower]
    omega
  have hcount : passCount (linearPower r m) = (m - 1) + 1 + 1 := by
    rw [passCount, Dense.degree, Dense.length_makeMonic, Dense.length_linearPower]
    omega
  have hlast : m = m - 1 + 1 := by omega
  rw [decompose_eq, if_neg hdegree, hsimple, hslope, hcount, hlast, Nat.add_sub_cancel,
    passes_linear (Dense.abs_lt_of_scale_lt hpositive h), Nat.add_comm]

/-- The fourth power of `x - 3`. -/
theorem decompose_fourth_power :
    2 ≤ 4 ∧ linearPowerScale (3 : ℚ) 4 < 10 ^ 9 * (4 : ℕ) ∧
      decompose (linearPower (3 : ℚ) 4) = [⟨[-3, 1], 4⟩] ∧
      Dense.gcd (linearPower (3 : ℚ) 4) (Dense.derivative (linearPower 3 4)) =
        linearPower 3 (4 - 1) := by
  have hscale : linearPowerScale (3 : ℚ) 4 < 10 ^ 9 * (4 : ℕ) := by decide +kernel
  obtain ⟨hfactors, hgcd⟩ := decompose_linearPower (3 : ℚ) (m := 4) (by decide)
  exact ⟨by decide, hscale, hfactors hscale, hgcd.mpr hscale⟩

/-- The square of `x - 100000` is taken for a polynomial without repeated
factors, though its coefficients are whole numbers far below `2 ^ 53`. -/
theorem decompose_large_square :
    ¬∀ (r : ℤ) (m : ℕ), 2 ≤ m → (∀ c ∈ linearPower (r : ℚ) m, |c| < 2 ^ 53) →
      decompose (linearPower (r : ℚ) m) = [⟨[-(r : ℚ), 1], m⟩] := by
  intro h
  have hsquare := h 100000 2 le_rfl (by decide +kernel)
  have hconstant : Dense.degree (commonDivisor (linearPower ((100000 : ℤ) : ℚ) 2)) = 0 := by
    decide +kernel
  rw [decompose_eq, if_pos hconstant] at hsquare
  simp at hsquare

end Squarefree

end Univariate
