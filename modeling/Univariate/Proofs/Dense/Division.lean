import Univariate.Proofs.Dense.Polynomial

/-!
# Products and division

The product of two lists of coefficients is added up row by row, each row
one place further up than the one before.  Long division takes such rows
off again, from the top downwards, and each step clears one place.  So the
dividend is the quotient times the divisor and a remainder that is shorter
than the divisor, which is true of no other two polynomials; and a product
divided by one of its factors is the other one, with as many coefficients as
it had.

* `Dense.toPolynomial_mul`, `Dense.length_mul` — the product;
* `Dense.toPolynomial_divRem`, `Dense.degree_divRem_lt` — division, and
  `Dense.eq_of_division_eq` for the uniqueness;
* `Dense.quotient_mul`, `Dense.quotient_mul_self` — divisions that come out
  even;
* `Dense.divRem_division` — all that there is to say about a division.
-/

namespace Univariate

namespace Dense

open Polynomial
open scoped Exact

/-! ## Divisions of polynomials -/

/-- **Quotient and remainder are unique.**  The difference of two remainders
is a multiple of the divisor, and too small to be any but zero. -/
theorem eq_of_division_eq {K : Type} [Field K] {b q r q' r' : K[X]} (hb : b ≠ 0)
    (h : q * b + r = q' * b + r') (hr : r.degree < b.degree) (hr' : r'.degree < b.degree) :
    q = q' ∧ r = r' := by
  have hmultiple : r - r' = (q' - q) * b := by linear_combination h
  have hzero : r - r' = 0 := by
    refine eq_zero_of_dvd_of_degree_lt (Dvd.intro_left _ hmultiple.symm) ?_
    exact (degree_sub_le r r').trans_lt (max_lt hr hr')
  have hrest : r = r' := sub_eq_zero.mp hzero
  refine ⟨mul_right_cancel₀ hb ?_, hrest⟩
  rw [hrest] at h
  exact add_right_cancel h

/-! ## The product -/

section Lengths

variable {α : Type} [Scalar α]

/-- Adding a multiple keeps the length. -/
theorem length_addScaled (k : α) (sums q : Dense α) :
    (addScaled k sums q).length = sums.length := by
  induction sums generalizing q with
  | nil => cases q <;> rfl
  | cons s sums ih =>
      cases q with
      | nil => rfl
      | cons b q => exact congrArg Nat.succ (ih q)

/-- Adding rows keeps the length. -/
theorem length_addRows (q sums p : Dense α) : (addRows q sums p).length = sums.length := by
  induction p generalizing sums with
  | nil => rfl
  | cons a p ih =>
      rw [addRows, ← length_addScaled a sums q]
      cases addScaled a sums q with
      | nil => rfl
      | cons s above => exact congrArg Nat.succ (ih above)

theorem nil_mul (q : Dense α) : mul [] q = [] := rfl

theorem mul_nil (p : Dense α) : mul p [] = [] := by simp [mul]

/-- A product is the sum of its rows, in a list that is long enough for all of
them. -/
theorem mul_eq_addRows {p q : Dense α} (hp : p ≠ []) (hq : q ≠ []) :
    mul p q = addRows q (List.replicate (p.length + q.length - 1) Scalar.zero) p := by
  simp [mul, hp, hq]

/-- A product has a coefficient for every place that a row reaches. -/
theorem length_mul {p q : Dense α} (hp : p ≠ []) (hq : q ≠ []) :
    (mul p q).length = p.length + q.length - 1 := by
  rw [mul_eq_addRows hp hq, length_addRows, List.length_replicate]

end Lengths

variable {α : Type} [Field α] [LinearOrder α]

/-- One row. -/
theorem toPolynomial_addScaled (k : α) {sums q : Dense α} (h : q.length ≤ sums.length) :
    toPolynomial (addScaled k sums q) = toPolynomial sums + C k * toPolynomial q := by
  induction sums generalizing q with
  | nil =>
      obtain rfl := List.length_eq_zero_iff.mp (Nat.le_zero.mp h)
      simp [addScaled]
  | cons s sums ih =>
      cases q with
      | nil => simp [addScaled]
      | cons b q =>
          rw [addScaled, toPolynomial_cons, ih (Nat.le_of_succ_le_succ h), toPolynomial_cons,
            toPolynomial_cons, C_add, C_mul]
          ring

/-- All rows, where the last one ends with the sums. -/
theorem toPolynomial_addRows {q : Dense α} (hq : q ≠ []) {sums p : Dense α}
    (h : p.length + q.length ≤ sums.length + 1) :
    toPolynomial (addRows q sums p) = toPolynomial sums + toPolynomial p * toPolynomial q := by
  induction p generalizing sums with
  | nil => simp [addRows]
  | cons a p ih =>
      rw [List.length_cons] at h
      have hpos := List.length_pos_iff.mpr hq
      have hrow := toPolynomial_addScaled a (show q.length ≤ sums.length by omega)
      have hlength := length_addScaled a sums q
      rw [addRows]
      cases hsums : addScaled a sums q with
      | nil =>
          rw [hsums, List.length_nil] at hlength
          omega
      | cons s above =>
          rw [hsums, List.length_cons] at hlength
          rw [hsums, toPolynomial_cons] at hrow
          -- The lowest sum is complete, and the other rows start above it.
          have hrest : toPolynomial (addRows q above p) =
              toPolynomial above + toPolynomial p * toPolynomial q := ih (by omega)
          calc toPolynomial (s :: addRows q above p)
              = C s + X * toPolynomial above + X * toPolynomial p * toPolynomial q := by
                rw [toPolynomial_cons, hrest]
                ring
            _ = toPolynomial sums + (C a + X * toPolynomial p) * toPolynomial q := by
                rw [hrow]
                ring

/-- **The product** of two lists denotes the product of the polynomials. -/
theorem toPolynomial_mul (p q : Dense α) :
    toPolynomial (mul p q) = toPolynomial p * toPolynomial q := by
  by_cases hp : p = []
  · rw [hp, nil_mul, toPolynomial_nil, zero_mul]
  by_cases hq : q = []
  · rw [hq, mul_nil, toPolynomial_nil, mul_zero]
  have hzeros : toPolynomial (List.replicate (p.length + q.length - 1) (Scalar.zero : α)) = 0 :=
    toPolynomial_eq_zero_of_forall fun c hc => (List.eq_of_mem_replicate hc).trans Exact.zero_eq
  have hroom : p.length + q.length ≤
      (List.replicate (p.length + q.length - 1) (Scalar.zero : α)).length + 1 := by
    rw [List.length_replicate]
    omega
  rw [mul_eq_addRows hp hq, toPolynomial_addRows hq hroom, hzeros, zero_add]

/-! ## Long division -/

/-- Subtracting a row subtracts a multiple of the divisor, shifted to the
leading coefficient. -/
theorem toPolynomial_subScaled (k : α) (rest lower : Dense α) (h : lower.length ≤ rest.length) :
    toPolynomial (subScaled k rest lower).reverse =
      toPolynomial rest.reverse -
        C k * X ^ (rest.length - lower.length) * toPolynomial lower.reverse := by
  induction rest generalizing lower with
  | nil =>
      obtain rfl := List.length_eq_zero_iff.mp (Nat.le_zero.mp h)
      simp [subScaled]
  | cons r rest ih =>
      cases lower with
      | nil => simp [subScaled]
      | cons b lower =>
          rw [List.length_cons, List.length_cons, Nat.add_le_add_iff_right] at h
          rw [subScaled, toPolynomial_reverse_cons, toPolynomial_reverse_cons,
            toPolynomial_reverse_cons, ih lower h, length_subScaled, List.length_cons,
            List.length_cons, Nat.add_sub_add_right, C_sub, C_mul]
          have hpow : (X : α[X]) ^ rest.length =
              X ^ (rest.length - lower.length) * X ^ lower.length := by
            rw [← pow_add, Nat.sub_add_cancel h]
          rw [hpow]
          ring

/-- One coefficient of the quotient per step. -/
theorem length_divSteps_fst (lead : α) (lower : Dense α) {steps : ℕ} {rest : Dense α}
    (h : steps ≤ rest.length) : (divSteps lead lower steps rest).1.length = steps := by
  induction steps generalizing rest with
  | zero => rfl
  | succ steps ih =>
      cases rest with
      | nil => cases h
      | cons top rest =>
          rw [divSteps, List.length_cons, ih]
          rw [length_subScaled]
          exact Nat.le_of_succ_le_succ h

/-- What long division takes off the dividend it puts into the quotient. -/
theorem toPolynomial_divSteps {lead : α} (hlead : lead ≠ 0) (lower : Dense α) {steps : ℕ}
    {rest : Dense α} (h : rest.length = steps + lower.length) :
    toPolynomial rest.reverse =
      toPolynomial (divSteps lead lower steps rest).1.reverse *
          toPolynomial (lead :: lower).reverse +
        toPolynomial (divSteps lead lower steps rest).2.reverse := by
  induction steps generalizing rest with
  | zero => simp [divSteps]
  | succ steps ih =>
      cases rest with
      | nil => simp [Nat.add_right_comm] at h
      | cons top rest =>
          have hlength : rest.length = steps + lower.length := by
            rw [List.length_cons] at h
            omega
          have hstep := ih ((length_subScaled (top / lead) rest lower).trans hlength)
          rw [toPolynomial_subScaled _ _ _ (by omega), sub_eq_iff_eq_add] at hstep
          rw [divSteps, toPolynomial_reverse_cons, hstep]
          simp only [toPolynomial_reverse_cons]
          rw [length_divSteps_fst _ _ (by rw [length_subScaled]; omega), hlength,
            Nat.add_sub_cancel, pow_add]
          have htop : C top = C (top / lead) * C lead := by rw [← C_mul, div_mul_cancel₀ _ hlead]
          rw [htop]
          ring

/-- **Long division.**  The dividend is the quotient times the divisor and
the remainder. -/
theorem toPolynomial_divRem (p : Dense α) {q : Dense α} (h : Reduced q) (hq : q ≠ []) :
    toPolynomial p =
      toPolynomial (divRem p q).1 * toPolynomial q + toPolynomial (divRem p q).2 := by
  obtain ⟨lead, lower, hreverse, hlead⟩ := h.exists_reverse hq
  have hlength : q.length = lower.length + 1 := by
    rw [← List.length_reverse, hreverse, List.length_cons]
  have hq' : q = (lead :: lower).reverse := by rw [← hreverse, List.reverse_reverse]
  unfold divRem
  rw [hreverse]
  dsimp only
  split_ifs with hshort
  · simp
  · have hlong : p.reverse.length = p.length - lower.length + lower.length := by
      rw [List.length_reverse]
      omega
    have hsteps := toPolynomial_divSteps hlead lower hlong
    rw [List.reverse_reverse, ← hq'] at hsteps
    exact hsteps

/-- A quotient has as many coefficients as there are steps. -/
theorem length_quotient (p : Dense α) {q : Dense α} (hq : q ≠ []) :
    (quotient p q).length = p.length + 1 - q.length := by
  have hlength : q.reverse.length = q.length := List.length_reverse
  unfold quotient divRem
  split
  · next h => simp_all
  · next lead lower h =>
    rw [h, List.length_cons] at hlength
    split_ifs with hshort
    · rw [List.length_nil]
      omega
    · rw [List.length_reverse, length_divSteps_fst]
      · omega
      · rw [List.length_reverse]
        omega

/-- The remainder has a smaller degree than the divisor. -/
theorem degree_divRem_lt (p : Dense α) {q : Dense α} (h : Reduced q) (hq : q ≠ []) :
    (toPolynomial (divRem p q).2).degree < (toPolynomial q).degree := by
  have hshort := length_divRem_lt p hq
  rw [h.length_eq hq] at hshort
  calc (toPolynomial (divRem p q).2).degree
      < (divRem p q).2.length := degree_toPolynomial_lt _
    _ ≤ (toPolynomial q).natDegree := Nat.cast_le.mpr (Nat.le_of_lt_succ hshort)
    _ = (toPolynomial q).degree :=
        (degree_eq_natDegree (h.toPolynomial_ne_zero hq)).symm

/-- The remainder vanishes exactly when the division comes out even. -/
theorem toPolynomial_divRem_snd_eq_zero_iff (p : Dense α) {q : Dense α} (h : Reduced q)
    (hq : q ≠ []) : toPolynomial (divRem p q).2 = 0 ↔ toPolynomial q ∣ toPolynomial p := by
  have hdivision := toPolynomial_divRem p h hq
  constructor
  · intro hzero
    rw [hzero, add_zero] at hdivision
    exact Dvd.intro_left _ hdivision.symm
  · intro hdvd
    refine eq_zero_of_dvd_of_degree_lt (p := toPolynomial q) ?_ ?_
    · rw [hdivision] at hdvd
      exact (dvd_add_right (dvd_mul_left _ _)).mp hdvd
    · exact degree_divRem_lt p h hq

/-- **A division that comes out even.** -/
theorem quotient_mul {p q : Dense α} (h : Reduced q) (hq : q ≠ [])
    (hdvd : toPolynomial q ∣ toPolynomial p) :
    toPolynomial (quotient p q) * toPolynomial q = toPolynomial p := by
  have hdivision := toPolynomial_divRem p h hq
  rw [(toPolynomial_divRem_snd_eq_zero_iff p h hq).mpr hdvd, add_zero] at hdivision
  exact hdivision.symm

/-- What makes up the dividend, in as many coefficients as it should have,
is the quotient. -/
theorem quotient_eq {p q a : Dense α} (h : Reduced q) (hq : q ≠ [])
    (hlength : a.length + q.length = p.length + 1)
    (hmul : toPolynomial a * toPolynomial q = toPolynomial p) : quotient p q = a := by
  refine eq_of_length_eq ?_ (mul_right_cancel₀ (h.toPolynomial_ne_zero hq) ?_)
  · rw [length_quotient p hq]
    omega
  · rw [quotient_mul h hq (Dvd.intro_left _ hmul), hmul]

/-- Dividing by one changes nothing. -/
theorem quotient_one (p : Dense α) : quotient p [1] = p :=
  quotient_eq (reduced_concat (p := []) one_ne_zero) (List.cons_ne_nil 1 []) rfl (by simp)

/-- The quotient of reduced lists is reduced, if the division comes out
even. -/
theorem reduced_quotient {p q : Dense α} (hp : Reduced p) (h : Reduced q) (hq : q ≠ [])
    (hdvd : toPolynomial q ∣ toPolynomial p) : Reduced (quotient p q) := by
  have hmul := quotient_mul h hq hdvd
  have hlength := length_quotient p hq
  by_cases hnil : p = []
  · have hzero : (quotient p q).length = 0 := by
      have := List.length_pos_iff.mpr hq
      rw [hlength, hnil, List.length_nil]
      omega
    rw [List.length_eq_zero_iff.mp hzero]
    exact reduced_nil
  · have hne : toPolynomial (quotient p q) ≠ 0 := by
      intro hzero
      rw [hzero, zero_mul, eq_comm, hp.toPolynomial_eq_zero_iff] at hmul
      exact hnil hmul
    refine reduced_of_length_le hne ?_
    have hdegree := natDegree_mul hne (h.toPolynomial_ne_zero hq)
    rw [hmul] at hdegree
    rw [hlength, hp.length_eq hnil, h.length_eq hq]
    omega

/-- **A product divided by one of its factors** is the other one. -/
theorem quotient_mul_self (p : Dense α) {q : Dense α} (h : Reduced q) (hq : q ≠ []) :
    quotient (mul p q) q = p := by
  have hpos := List.length_pos_iff.mpr hq
  by_cases hp : p = []
  · have hlength := length_quotient ([] : Dense α) hq
    rw [List.length_nil] at hlength
    rw [hp, nil_mul, ← List.length_eq_zero_iff]
    omega
  · refine quotient_eq h hq ?_ (toPolynomial_mul p q).symm
    rw [length_mul hp hq]
    omega

/-- **Long division.**  For every dividend, whatever its length and its last
coefficients are, and every divisor that is not empty and does not end with
a zero: the dividend is the quotient times the divisor and the remainder;
the remainder has fewer coefficients than the divisor; these two are the
only polynomials that divide it so; and dividing the product of any list and
the divisor gives that list back. -/
theorem divRem_division (a : Dense α) {b : Dense α} (h : Reduced b) (hb : b ≠ []) :
    toPolynomial a =
        toPolynomial (divRem a b).1 * toPolynomial b + toPolynomial (divRem a b).2 ∧
      (divRem a b).2.length < b.length ∧
      (∀ q r : α[X], toPolynomial a = q * toPolynomial b + r →
        r.degree < (toPolynomial b).degree →
        q = toPolynomial (divRem a b).1 ∧ r = toPolynomial (divRem a b).2) ∧
      quotient (mul a b) b = a := by
  have hdivision := toPolynomial_divRem a h hb
  refine ⟨hdivision, length_divRem_lt a hb, ?_, quotient_mul_self a h hb⟩
  intro q r hqr hr
  exact eq_of_division_eq (h.toPolynomial_ne_zero hb) (hqr.symm.trans hdivision) hr
    (degree_divRem_lt a h hb)

/-- Dividing `x² + 1`, with a zero to spare, by `2x - 2`. -/
theorem divRem_division_linear :
    Reduced ([-2, 2] : Dense ℚ) ∧ ([-2, 2] : Dense ℚ) ≠ [] ∧
      divRem ([1, 0, 1, 0] : Dense ℚ) [-2, 2] = ([1 / 2, 1 / 2, 0], [2]) ∧
      toPolynomial ([1, 0, 1, 0] : Dense ℚ) =
        toPolynomial ([1 / 2, 1 / 2, 0] : Dense ℚ) * toPolynomial [-2, 2] + toPolynomial [2] ∧
      (∀ q r : ℚ[X], toPolynomial [1, 0, 1, 0] = q * toPolynomial [-2, 2] + r →
        r.degree < (toPolynomial ([-2, 2] : Dense ℚ)).degree →
        q = toPolynomial [1 / 2, 1 / 2, 0] ∧ r = toPolynomial [2]) ∧
      quotient (mul ([1, 0, 1, 0] : Dense ℚ) [-2, 2]) [-2, 2] = [1, 0, 1, 0] := by
  have hreduced : Reduced ([-2, 2] : Dense ℚ) := by simp [Reduced]
  have hne : ([-2, 2] : Dense ℚ) ≠ [] := List.cons_ne_nil _ _
  have hrun : divRem ([1, 0, 1, 0] : Dense ℚ) [-2, 2] = ([1 / 2, 1 / 2, 0], [2]) := by
    decide +kernel
  obtain ⟨hdivision, -, hunique, hback⟩ := divRem_division [1, 0, 1, 0] hreduced hne
  rw [hrun] at hdivision hunique
  exact ⟨hreduced, hne, hrun, hdivision, hunique, hback⟩

end Dense

end Univariate
