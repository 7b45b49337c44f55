import Univariate.Proofs.Exact.Scalar

/-!
# Coefficient lists denote polynomials

A list of coefficients, lowest degree first, denotes a polynomial, and in
exact arithmetic every operation on lists is the operation of that name on
polynomials.  A list without a zero at its end is determined by its
polynomial: its length is the degree and one more, and its last entry is
the leading coefficient.

* `Dense.toPolynomial` — what a list denotes;
* `Dense.Reduced` — no zero at the end, with `Dense.Reduced.ext` for the
  uniqueness;
* `Dense.toPolynomial_derivative`, `Dense.toPolynomial_sub`,
  `Dense.Reduced.toPolynomial_makeMonic` — the operations.
-/

namespace Univariate

namespace Dense

open Polynomial
open scoped Exact

section Lengths

variable {α : Type}

/-- The degree counts the coefficients below the last one. -/
theorem degree_concat (lower : Dense α) (lead : α) : degree (lower ++ [lead]) = lower.length := by
  rw [degree, List.length_append, List.length_singleton, Nat.add_sub_cancel]

variable [Scalar α]

/-- One coefficient comes of each. -/
theorem length_derivativeFrom (d : ℕ) (p : Dense α) : (derivativeFrom d p).length = p.length := by
  induction p generalizing d with
  | nil => rfl
  | cons c p ih => rw [derivativeFrom, List.length_cons, ih, List.length_cons]

/-- A derivative has one coefficient less. -/
theorem length_derivative (p : Dense α) : (derivative p).length = p.length - 1 := by
  rw [derivative, length_derivativeFrom, List.length_tail]

end Lengths

variable {α : Type} [Field α]

/-- The polynomial with these coefficients, lowest degree first. -/
noncomputable def toPolynomial : Dense α → α[X]
  | [] => 0
  | c :: p => C c + X * toPolynomial p

@[simp] theorem toPolynomial_nil : toPolynomial ([] : Dense α) = 0 := rfl

/-- Another coefficient in front raises all degrees by one. -/
@[simp] theorem toPolynomial_cons (c : α) (p : Dense α) :
    toPolynomial (c :: p) = C c + X * toPolynomial p := rfl

/-- Mapping the coefficients maps the polynomial. -/
theorem toPolynomial_map {β : Type} [Field β] (φ : α →+* β) (p : Dense α) :
    toPolynomial (p.map φ) = (toPolynomial p).map φ := by
  induction p with
  | nil => simp
  | cons c p ih => simp [ih]

/-- What stands behind counts by its place. -/
theorem toPolynomial_append (p q : Dense α) :
    toPolynomial (p ++ q) = toPolynomial p + X ^ p.length * toPolynomial q := by
  induction p with
  | nil => simp
  | cons c p ih =>
      rw [List.cons_append, toPolynomial_cons, toPolynomial_cons, ih, List.length_cons]
      ring

/-- With the highest degree first, a coefficient is added in front. -/
theorem toPolynomial_reverse_cons (c : α) (p : Dense α) :
    toPolynomial (c :: p).reverse = toPolynomial p.reverse + C c * X ^ p.length := by
  rw [List.reverse_cons, toPolynomial_append, List.length_reverse, toPolynomial_cons,
    toPolynomial_nil, mul_zero, add_zero, mul_comm]

/-- **The entries of the list are the coefficients.** -/
theorem coeff_toPolynomial (p : Dense α) (i : ℕ) : (toPolynomial p).coeff i = p.getD i 0 := by
  induction p generalizing i with
  | nil => simp
  | cons c p ih => cases i <;> simp [ih]

/-- A list of zeros is the zero polynomial. -/
theorem toPolynomial_eq_zero_of_forall {p : Dense α} (h : ∀ c ∈ p, c = 0) :
    toPolynomial p = 0 := by
  induction p with
  | nil => rfl
  | cons c p ih =>
      rw [toPolynomial_cons, h c List.mem_cons_self,
        ih fun d hd => h d (List.mem_cons_of_mem c hd), C_0, mul_zero, add_zero]

/-- Only lists of zeros are the zero polynomial. -/
theorem forall_eq_zero_of_toPolynomial {p : Dense α} (h : toPolynomial p = 0) :
    ∀ c ∈ p, c = 0 := by
  intro c hc
  obtain ⟨i, hi, rfl⟩ := List.mem_iff_getElem.mp hc
  rw [← List.getD_eq_getElem p 0 hi, ← coeff_toPolynomial, h, coeff_zero]

/-- The length and the polynomial determine a list. -/
theorem eq_of_length_eq {p q : Dense α} (hlength : p.length = q.length)
    (h : toPolynomial p = toPolynomial q) : p = q := by
  refine List.ext_getElem hlength fun i hi hi' => ?_
  rw [← List.getD_eq_getElem p 0 hi, ← List.getD_eq_getElem q 0 hi', ← coeff_toPolynomial,
    ← coeff_toPolynomial, h]

/-- The degree lies below the length. -/
theorem degree_toPolynomial_lt (p : Dense α) : (toPolynomial p).degree < p.length := by
  refine (degree_lt_iff_coeff_zero _ _).mpr fun i hi => ?_
  rw [coeff_toPolynomial, List.getD_eq_default _ _ hi]

/-! ## Lists without a zero at the end -/

/-- The last coefficient, if there is one, is not zero. -/
def Reduced (p : Dense α) : Prop := ∀ c ∈ p.getLast?, c ≠ 0

theorem reduced_nil : Reduced ([] : Dense α) := nofun

/-- A list is reduced that ends in a coefficient other than zero. -/
theorem reduced_concat {p : Dense α} {c : α} (hc : c ≠ 0) : Reduced (p ++ [c]) := by
  intro d hd
  rw [List.getLast?_concat, Option.mem_some_iff] at hd
  exact hd ▸ hc

/-- A reduced list is empty or ends with the leading coefficient. -/
theorem Reduced.eq_nil_or_concat {p : Dense α} (h : Reduced p) :
    p = [] ∨ ∃ lower c, p = lower ++ [c] ∧ c ≠ 0 := by
  rcases List.eq_nil_or_concat p with rfl | ⟨lower, c, rfl⟩
  · exact Or.inl rfl
  · rw [List.concat_eq_append] at h ⊢
    exact Or.inr ⟨lower, c, rfl, h c (by simp)⟩

/-- A reduced list begins with its leading coefficient, read backwards. -/
theorem Reduced.exists_reverse {q : Dense α} (h : Reduced q) (hq : q ≠ []) :
    ∃ lead lower, q.reverse = lead :: lower ∧ lead ≠ 0 := by
  rcases h.eq_nil_or_concat with rfl | ⟨lower, c, rfl, hc⟩
  · exact absurd rfl hq
  · exact ⟨c, lower.reverse, by simp, hc⟩

/-- The last entry is the coefficient at its place. -/
theorem coeff_concat (lower : Dense α) (c : α) :
    (toPolynomial (lower ++ [c])).coeff lower.length = c := by
  simp [coeff_toPolynomial]

/-- A last entry other than zero gives the degree. -/
theorem natDegree_concat {lower : Dense α} {c : α} (hc : c ≠ 0) :
    (toPolynomial (lower ++ [c])).natDegree = lower.length := by
  refine natDegree_eq_of_degree_eq_some (le_antisymm ?_ ?_)
  · have hlt := degree_toPolynomial_lt (lower ++ [c])
    rw [List.length_append, List.length_singleton] at hlt
    exact Order.lt_succ_iff.mp hlt
  · exact le_degree_of_ne_zero ((coeff_concat lower c).trans_ne hc)

/-- A last entry other than zero leads. -/
theorem leadingCoeff_concat {lower : Dense α} {c : α} (hc : c ≠ 0) :
    (toPolynomial (lower ++ [c])).leadingCoeff = c := by
  rw [leadingCoeff, natDegree_concat hc, coeff_concat]

namespace Reduced

variable {p q : Dense α}

/-- A reduced list is the zero polynomial only if it is empty. -/
theorem toPolynomial_eq_zero_iff (h : Reduced p) : toPolynomial p = 0 ↔ p = [] := by
  rcases h.eq_nil_or_concat with rfl | ⟨lower, c, rfl, hc⟩
  · simp
  · refine iff_of_false (fun hzero => hc ?_) (by simp)
    rw [← leadingCoeff_concat hc, hzero, leadingCoeff_zero]

/-- A reduced list with entries is not the zero polynomial. -/
theorem toPolynomial_ne_zero (h : Reduced p) (hp : p ≠ []) : toPolynomial p ≠ 0 :=
  mt h.toPolynomial_eq_zero_iff.mp hp

/-- **The degree of a reduced list** is that of the polynomial. -/
theorem natDegree_eq (h : Reduced p) : (toPolynomial p).natDegree = p.degree := by
  rcases h.eq_nil_or_concat with rfl | ⟨lower, c, rfl, hc⟩
  · rfl
  · rw [natDegree_concat hc, Dense.degree, List.length_append]
    rfl

/-- A reduced list has one entry more than its degree. -/
theorem length_eq (h : Reduced p) (hp : p ≠ []) :
    p.length = (toPolynomial p).natDegree + 1 := by
  have := List.length_pos_iff.mpr hp
  rw [h.natDegree_eq, Dense.degree]
  omega

/-- A reduced list is determined by its polynomial. -/
protected theorem ext (hp : Reduced p) (hq : Reduced q) (h : toPolynomial p = toPolynomial q) :
    p = q := by
  have hlength : p.length = q.length := by
    by_cases hnil : p = []
    · rw [hnil, eq_comm, toPolynomial_nil, hq.toPolynomial_eq_zero_iff] at h
      rw [hnil, h]
    · have hnil' : q ≠ [] := by
        rwa [← not_congr hp.toPolynomial_eq_zero_iff, h, not_congr hq.toPolynomial_eq_zero_iff]
          at hnil
      rw [hp.length_eq hnil, hq.length_eq hnil', h]
  exact eq_of_length_eq hlength h

end Reduced

/-- A list that is no longer than the degree asks for is reduced. -/
theorem reduced_of_length_le {p : Dense α} (hp : toPolynomial p ≠ 0)
    (h : p.length ≤ (toPolynomial p).natDegree + 1) : Reduced p := by
  rcases List.eq_nil_or_concat p with rfl | ⟨lower, c, rfl⟩
  · exact reduced_nil
  · rw [List.concat_eq_append] at hp h ⊢
    refine reduced_concat fun hc => ?_
    rw [List.length_append, List.length_singleton, Nat.add_le_add_iff_right] at h
    -- With a zero at its end the list would be longer than its degree.
    have hcoeff := coeff_concat lower c
    rw [hc] at hcoeff h hp
    have hlt : (toPolynomial (lower ++ [0])).degree < lower.length := by
      refine (degree_lt_iff_coeff_zero _ _).mpr fun i hi => ?_
      rcases hi.eq_or_lt with rfl | hlt
      · exact hcoeff
      · rw [coeff_toPolynomial, List.getD_eq_default]
        simpa using hlt
    exact absurd ((natDegree_lt_iff_degree_lt hp).mpr hlt) (not_lt.mpr h)

/-! ## Operations -/

variable [LinearOrder α]

/-- The derivative of coefficients from any degree on. -/
theorem derivative_X_pow_mul_toPolynomial (d : ℕ) (p : Dense α) :
    Polynomial.derivative (X ^ (d + 1) * toPolynomial p) =
      X ^ d * toPolynomial (derivativeFrom (d + 1) p) := by
  induction p generalizing d with
  | nil => simp [derivativeFrom]
  | cons c p ih =>
      have hshift : X ^ (d + 1) * toPolynomial (c :: p) =
          C c * X ^ (d + 1) + X ^ (d + 1 + 1) * toPolynomial p := by
        rw [toPolynomial_cons]
        ring
      rw [hshift, derivative_add, ih, derivativeFrom, toPolynomial_cons, Exact.ofNat_eq,
        derivative_C_mul_X_pow, Nat.add_sub_cancel]
      ring

/-- **The derivative is the derivative.** -/
theorem toPolynomial_derivative (p : Dense α) :
    toPolynomial (derivative p) = Polynomial.derivative (toPolynomial p) := by
  cases p with
  | nil => simp [derivative, derivativeFrom]
  | cons c p =>
      have h := derivative_X_pow_mul_toPolynomial 0 p
      rw [zero_add, pow_one, pow_zero, one_mul] at h
      rw [toPolynomial_cons, derivative_add, derivative_C, zero_add, h]
      rfl

/-- The last coefficient of a derivative, from any degree on. -/
theorem derivativeFrom_concat (d : ℕ) (lower : Dense α) (c : α) :
    derivativeFrom d (lower ++ [c]) = derivativeFrom d lower ++ [c * ↑(d + lower.length)] := by
  induction lower generalizing d with
  | nil => rfl
  | cons b lower ih =>
      rw [List.cons_append, derivativeFrom, ih, derivativeFrom, List.length_cons,
        Nat.add_right_comm, Nat.add_assoc]
      rfl

/-- The last coefficient of a derivative is the leading one times the degree. -/
theorem derivative_concat (lower : Dense α) (h : lower ≠ []) (c : α) :
    derivative (lower ++ [c]) = derivative lower ++ [c * ↑lower.length] := by
  obtain ⟨b, lower, rfl⟩ := List.exists_cons_of_ne_nil h
  rw [derivative, List.cons_append, List.tail_cons, derivativeFrom_concat, List.length_cons,
    Nat.add_comm 1]
  rfl

/-- **Differences are differences.** -/
theorem toPolynomial_sub (p q : Dense α) :
    toPolynomial (sub p q) = toPolynomial p - toPolynomial q := by
  fun_induction sub p q with
  | case1 => simp
  | case2 a p ih => simp [ih]
  | case3 b q ih =>
      simp [ih]
      ring
  | case4 a p b q ih =>
      simp [ih]
      ring

/-- Dividing the coefficients divides the polynomial. -/
theorem toPolynomial_map_div (p : Dense α) (k : α) :
    toPolynomial (p.map (· / k)) = C k⁻¹ * toPolynomial p := by
  induction p with
  | nil => simp
  | cons c p ih =>
      rw [List.map_cons, toPolynomial_cons, ih, toPolynomial_cons, div_eq_mul_inv, C_mul]
      ring

/-- A monic list ends in one. -/
theorem makeMonic_concat {lower : Dense α} {c : α} (hc : c ≠ 0) :
    makeMonic (lower ++ [c]) = lower.map (· / c) ++ [1] := by
  simp [makeMonic, hc]

/-- Making a reduced list monic leaves it reduced. -/
theorem reduced_makeMonic {p : Dense α} (h : Reduced p) : Reduced (makeMonic p) := by
  rcases h.eq_nil_or_concat with rfl | ⟨lower, c, rfl, hc⟩
  · exact reduced_nil
  · rw [makeMonic_concat hc]
    exact reduced_concat one_ne_zero

/-- Making a list monic divides by the leading coefficient. -/
theorem Reduced.toPolynomial_makeMonic {p : Dense α} (h : Reduced p) :
    toPolynomial (makeMonic p) = C (toPolynomial p).leadingCoeff⁻¹ * toPolynomial p := by
  rcases h.eq_nil_or_concat with rfl | ⟨lower, c, rfl, hc⟩
  · simp [makeMonic]
  · rw [leadingCoeff_concat hc, ← toPolynomial_map_div, makeMonic_concat hc, List.map_append,
      List.map_singleton, div_self hc]

/-- **What has been made monic is monic.** -/
theorem Reduced.monic_makeMonic {p : Dense α} (h : Reduced p) (hp : p ≠ []) :
    (toPolynomial (makeMonic p)).Monic := by
  rw [h.toPolynomial_makeMonic, mul_comm]
  exact monic_mul_leadingCoeff_inv (h.toPolynomial_ne_zero hp)

/-- A monic list stays as it is. -/
theorem Reduced.makeMonic_eq {p : Dense α} (h : Reduced p) (hmonic : (toPolynomial p).Monic) :
    makeMonic p = p := by
  refine (reduced_makeMonic h).ext h ?_
  rw [h.toPolynomial_makeMonic, hmonic.leadingCoeff, inv_one, C_1, one_mul]

/-- A monic list has the divisors that it had before. -/
theorem Reduced.dvd_makeMonic_iff {p : Dense α} (h : Reduced p) (d : α[X]) :
    d ∣ toPolynomial (makeMonic p) ↔ d ∣ toPolynomial p := by
  by_cases hp : p = []
  · rw [hp]
    rfl
  · have hlead : (toPolynomial p).leadingCoeff⁻¹ ≠ 0 :=
      inv_ne_zero (leadingCoeff_ne_zero.mpr (h.toPolynomial_ne_zero hp))
    rw [h.toPolynomial_makeMonic, dvd_C_mul hlead]

/-- So has one that stays as it is because it ends with a zero. -/
theorem dvd_makeMonic_iff (p : Dense α) (d : α[X]) :
    d ∣ toPolynomial (makeMonic p) ↔ d ∣ toPolynomial p := by
  by_cases h : Reduced p
  · exact h.dvd_makeMonic_iff d
  · obtain ⟨c, hc, hzero⟩ : ∃ c ∈ p.getLast?, c = 0 := by simpa [Reduced] using h
    have hsame : makeMonic p = p := by simp [makeMonic, Option.mem_def.mp hc, hzero]
    rw [hsame]

end Dense

end Univariate
