import Univariate.Proofs.NormalForm.RoundTrip
import Univariate.Proofs.Roots.Shape

/-!
# Normal forms of integer polynomials

What the normal form of a polynomial says about the polynomial, as long as
its coefficients are numbers, and when a computed list of coefficients is
close to it.

* `NormalForm.canonical_ofPolynomial`, `NormalForm.exactly_coefficient` —
  the terms and the coefficients;
* `NormalForm.ofPolynomial_sumOfTerms` — the terms of a sum of monomials;
* `NormalForm.exactly_coefficient_ofDense`,
  `NormalForm.approxEq_ofPolynomial` — computed coefficients, their values
  and closeness to a polynomial.
-/

namespace Univariate

open Binary64 Polynomial

/-- All coefficients are integers that are numbers. -/
def Numeric (f : ℤ[X]) : Prop := ∀ i, |f.coeff i| < 2 ^ 53

namespace NormalForm

variable {f : ℤ[X]}

theorem descending_ofPolynomial (f : ℤ[X]) :
    (ofPolynomial f).terms.Pairwise fun s t => t.1 < s.1 := by
  refine List.pairwise_map.mpr ?_
  have hsorted := Finset.pairwise_sort f.support (· ≥ ·)
  have hnodup : (f.support.sort (· ≥ ·)).Pairwise (· ≠ ·) := Finset.sort_nodup _ _
  exact (hsorted.and hnodup).imp fun h => lt_of_le_of_ne h.1 h.2.symm

/-- The terms are the coefficients that are not zero, as numbers. -/
theorem mem_ofPolynomial {t : ℕ × Float} :
    t ∈ (ofPolynomial f).terms ↔ f.coeff t.1 ≠ 0 ∧ t.2 = Float.ofInt (f.coeff t.1) := by
  rw [ofPolynomial, List.mem_map]
  constructor
  · rintro ⟨d, hd, rfl⟩
    exact ⟨mem_support_iff.mp ((Finset.mem_sort _).mp hd), rfl⟩
  · rintro ⟨hne, heq⟩
    exact ⟨t.1, (Finset.mem_sort _).mpr (mem_support_iff.mpr hne), Prod.ext rfl heq.symm⟩

/-- The form is canonical if every coefficient is an exact number. -/
theorem canonical_ofPolynomial (hf : Numeric f) : (ofPolynomial f).Canonical := by
  refine ⟨descending_ofPolynomial f, fun t ht => ?_⟩
  obtain ⟨hne, heq⟩ := mem_ofPolynomial.mp ht
  have hzero := (exactly_ofInt (hf t.1)).eq_zero_iff
  rw [← heq] at hzero
  exact Bool.eq_false_iff.mpr (mt hzero.mp (by exact_mod_cast hne))

/-- A coefficient is that of the polynomial. -/
theorem exactly_coefficient (hf : Numeric f) (d : ℕ) :
    Exactly ((ofPolynomial f).coefficient d) (f.coeff d) := by
  by_cases hd : f.coeff d = 0
  · have hnone : ∀ t ∈ (ofPolynomial f).terms, t.1 ≠ d := by
      rintro t ht rfl
      exact (mem_ofPolynomial.mp ht).1 hd
    rw [coefficient_of_forall_ne hnone, hd, Int.cast_zero]
    exact exactly_scalar_zero
  · have hmem : (d, Float.ofInt (f.coeff d)) ∈ (ofPolynomial f).terms :=
      mem_ofPolynomial.mpr ⟨hd, rfl⟩
    rw [coefficient_of_mem (descending_ofPolynomial f) hmem]
    exact exactly_ofInt (hf d)

/-- The term of the highest degree is the first. -/
theorem exists_terms_ofPolynomial (hf : f ≠ 0) :
    ∃ rest, (ofPolynomial f).terms = (f.natDegree, Float.ofInt f.leadingCoeff) :: rest := by
  have hmem : (f.natDegree, Float.ofInt f.leadingCoeff) ∈ (ofPolynomial f).terms :=
    mem_ofPolynomial.mpr ⟨leadingCoeff_ne_zero.mpr hf, rfl⟩
  have hdescending := descending_ofPolynomial f
  rcases hterms : (ofPolynomial f).terms with _ | ⟨t, rest⟩
  · rw [hterms] at hmem
    cases hmem
  · rw [hterms] at hmem hdescending
    rcases List.mem_cons.mp hmem with heq | hrest
    · exact ⟨rest, by rw [heq]⟩
    · have hlt := (List.pairwise_cons.mp hdescending).1 _ hrest
      have ht : t ∈ (ofPolynomial f).terms := by rw [hterms]; exact List.mem_cons_self
      exact absurd hlt (not_lt.mpr (le_natDegree_of_ne_zero (mem_ofPolynomial.mp ht).1))

/-! ## Sums of monomials -/

/-- The polynomial of some terms. -/
noncomputable def sumOfTerms (terms : List (ℕ × ℤ)) : ℤ[X] :=
  (terms.map fun t => monomial t.1 t.2).sum

theorem coeff_sumOfTerms_cons (t : ℕ × ℤ) (terms : List (ℕ × ℤ)) (d : ℕ) :
    (sumOfTerms (t :: terms)).coeff d =
      (if t.1 = d then t.2 else 0) + (sumOfTerms terms).coeff d := by
  rw [sumOfTerms, List.map_cons, List.sum_cons, coeff_add, coeff_monomial]
  rfl

/-- A degree without a term has the coefficient zero. -/
theorem coeff_sumOfTerms_eq_zero {terms : List (ℕ × ℤ)} {d : ℕ} (h : ∀ t ∈ terms, t.1 ≠ d) :
    (sumOfTerms terms).coeff d = 0 := by
  induction terms with
  | nil => exact coeff_zero d
  | cons t terms ih =>
      obtain ⟨ht, h⟩ := List.forall_mem_cons.mp h
      rw [coeff_sumOfTerms_cons, if_neg ht, ih h, add_zero]

/-- With falling degrees the coefficient of a term is its own. -/
theorem coeff_sumOfTerms_of_mem {terms : List (ℕ × ℤ)} (h : terms.Pairwise fun s t => t.1 < s.1)
    {t : ℕ × ℤ} (ht : t ∈ terms) : (sumOfTerms terms).coeff t.1 = t.2 := by
  induction terms with
  | nil => cases ht
  | cons s terms ih =>
      obtain ⟨habove, h⟩ := List.pairwise_cons.mp h
      rw [coeff_sumOfTerms_cons]
      rcases List.mem_cons.mp ht with rfl | ht
      · rw [if_pos rfl, coeff_sumOfTerms_eq_zero fun s hs => (habove s hs).ne, add_zero]
      · rw [if_neg (habove t ht).ne', ih h ht, zero_add]

/-- What holds of zero and of the terms holds of all coefficients. -/
theorem forall_coeff_sumOfTerms {P : ℤ → Prop} {terms : List (ℕ × ℤ)}
    (h : terms.Pairwise fun s t => t.1 < s.1) (hzero : P 0) (hterms : ∀ t ∈ terms, P t.2) (i : ℕ) :
    P ((sumOfTerms terms).coeff i) := by
  by_cases hi : ∃ t ∈ terms, t.1 = i
  · obtain ⟨t, ht, rfl⟩ := hi
    rw [coeff_sumOfTerms_of_mem h ht]
    exact hterms t ht
  · rw [coeff_sumOfTerms_eq_zero fun t ht heq => hi ⟨t, ht, heq⟩]
    exact hzero

/-- Coefficients below `2⁵³` are exact numbers. -/
theorem numeric_sumOfTerms {terms : List (ℕ × ℤ)} (h : terms.Pairwise fun s t => t.1 < s.1)
    (hlt : ∀ t ∈ terms, |t.2| < 2 ^ 53) : Numeric (sumOfTerms terms) :=
  forall_coeff_sumOfTerms (P := fun a => |a| < 2 ^ 53) h (by norm_num) hlt

/-- **Terms in order are the normal form of their sum.** -/
theorem ofPolynomial_sumOfTerms {terms : List (ℕ × ℤ)} (h : terms.Pairwise fun s t => t.1 < s.1)
    (hne : ∀ t ∈ terms, t.2 ≠ 0) :
    ofPolynomial (sumOfTerms terms) = ⟨terms.map fun t => (t.1, Float.ofInt t.2)⟩ := by
  have hsupport : (sumOfTerms terms).support = (terms.map Prod.fst).toFinset := by
    ext d
    rw [mem_support_iff, List.mem_toFinset, List.mem_map]
    constructor
    · intro hd
      by_contra hnone
      exact hd (coeff_sumOfTerms_eq_zero fun t ht heq => hnone ⟨t, ht, heq⟩)
    · rintro ⟨t, ht, rfl⟩
      rw [coeff_sumOfTerms_of_mem h ht]
      exact hne t ht
  have hdegrees : (terms.map Prod.fst).Pairwise (· > ·) := List.pairwise_map.mpr h
  have hsort : (sumOfTerms terms).support.sort (· ≥ ·) = terms.map Prod.fst := by
    rw [hsupport]
    exact (List.toFinset_sort _ (hdegrees.imp ne_of_gt)).mpr (hdegrees.imp le_of_lt)
  rw [ofPolynomial, hsort, List.map_map]
  refine congrArg NormalForm.mk (List.map_congr_left fun t ht => ?_)
  exact congrArg (fun c => (t.1, Float.ofInt c)) (coeff_sumOfTerms_of_mem h ht)

/-! ## Computed coefficients -/

/-- The form of a zero has no influence on its value. -/
theorem exactly_flush {c : Float} {v : ℚ} (hc : Exactly c v) : Exactly (flush c) v := by
  unfold flush
  split_ifs with hzero
  · obtain rfl : v = 0 := hc.eq_zero_iff.mp hzero
    exact exactly_scalar_zero
  · exact hc

/-- The value of a coefficient, also where it is zero and left out. -/
theorem exactly_coefficient_ofDense {cs : List Float} {d : ℕ} {v : ℚ}
    (hget : ∀ c, cs[d]? = some c → Exactly c v) (hnone : cs[d]? = none → v = 0) :
    Exactly ((ofDense cs).coefficient d) v := by
  rw [coefficient_ofDense]
  cases hc : cs[d]? with
  | none =>
      rw [hnone hc]
      exact exactly_scalar_zero
  | some c => exact exactly_flush (hget c hc)

/-- **Computed coefficients are close to a polynomial** if each of them is
within a millionth, but for what rounding the comparison takes. -/
theorem approxEq_ofPolynomial {cs : List Float} (hf : Numeric f) {κ : ℚ}
    (hκ : κ ≤ 1 / 10 ^ 6 - 1 / 10 ^ 15)
    (hclose : ∀ i c, cs[i]? = some c → ∃ v, Exactly c v ∧
      |v - f.coeff i| ≤ κ * max |(f.coeff i : ℚ)| 1)
    (hbeyond : ∀ i, cs[i]? = none → f.coeff i = 0) :
    (ofDense cs).approxEq (ofPolynomial f) (Float.ofScientific 1 true 6) = true := by
  rw [approxEq, List.all_eq_true]
  intro d _
  have hcoefficient := exactly_coefficient hf d
  cases hd : cs[d]? with
  | none =>
      have hzero : Exactly ((ofDense cs).coefficient d) (f.coeff d) := by
        refine exactly_coefficient_ofDense (fun c hc => ?_) fun _ => by exact_mod_cast hbeyond d hd
        rw [hc] at hd
        cases hd
      have hshare : (0 : ℚ) ≤ 1 / 10 ^ 6 - 1 / 10 ^ 15 := by norm_num
      refine closeTo_of_close hzero hcoefficient hshare ?_
      rw [sub_self, abs_zero, zero_mul]
  | some c =>
      obtain ⟨v, hv, hle⟩ := hclose d c hd
      have hvalue : Exactly ((ofDense cs).coefficient d) v := by
        refine exactly_coefficient_ofDense (fun b hb => ?_) fun hnone => ?_
        · rw [hd] at hb
          exact Option.some.inj hb ▸ hv
        · rw [hd] at hnone
          cases hnone
      exact closeTo_of_close hvalue hcoefficient hκ hle

end NormalForm

end Univariate
