import Univariate.Proofs.NormalForm.Coefficients
import Univariate.Proofs.Roots.Product
import Univariate.Proofs.Roots.Symmetry
import Univariate.Proofs.Roots.Taylor

/-!
# Factors multiplied out without rounding

Each pass over the coefficients multiplies by one linear factor, and the
passes of a factor are as many as its multiplicity, so over the reals the
coefficients are those of the product of all factors.  That they are real
cannot be seen at any single pass.  Conjugating all of them conjugates the
roots, and the roots of a polynomial are a multiset: the coefficients are
real exactly if that multiset is its own conjugate.

* `Factorization.zeros` — the roots, with repetition;
* `Factorization.complexPolynomial_timesLinear`,
  `Factorization.complexPolynomial_expand` — one factor, and all of them;
* `Factorization.forall_im_expand_iff` — when the coefficients are real;
* `Factorization.coefficient_toNormalForm` — and that nothing is lost then;
* `Factorization.expand_product` — all this about what is computed.
-/

namespace Univariate

/-- The roots of a factorization, each as often as its multiplicity says. -/
def Factorization.zeros {α : Type} (f : Factorization α) : List (Cplx α) :=
  f.factors.flatMap fun r => List.replicate r.multiplicity r.value

/-- Factors that are conjugate in pairs have conjugate roots. -/
theorem ConjClosed.zeros {α : Type} [Scalar α] {f : Factorization α} (h : ConjClosed f.factors) :
    (f.zeros.map Cplx.conj).Perm f.zeros := by
  have hmap : f.zeros.map Cplx.conj =
      (f.factors.map Root.conj).flatMap fun r => List.replicate r.multiplicity r.value := by
    rw [Factorization.zeros, List.map_flatMap, List.flatMap_map]
    exact List.flatMap_congr fun r _ => List.map_replicate
  rw [hmap]
  exact List.Perm.flatMap_right _ h

namespace Factorization

open Polynomial Multiplicity
open scoped Exact ComplexConjugate

/-! ## The product -/

/-- One pass over the coefficients, with what is left from the place
below. -/
theorem complexPolynomial_timesLinearFrom (root below : Cplx ℝ) (p : List (Cplx ℝ)) :
    complexPolynomial (timesLinearFrom root below p) =
      C below.toComplex + (X - C root.toComplex) * complexPolynomial p := by
  induction p generalizing below with
  | nil => simp [timesLinearFrom, complexPolynomial]
  | cons c p ih =>
      rw [timesLinearFrom, complexPolynomial_cons, ih, complexPolynomial_cons,
        Cplx.toComplex_sub, Cplx.toComplex_mul, Cplx.toComplex_add, Cplx.toComplex_zero, C_sub,
        C_mul, zero_add]
      ring

/-- **One pass** multiplies by a linear factor. -/
theorem complexPolynomial_timesLinear (root : Cplx ℝ) (p : List (Cplx ℝ)) :
    complexPolynomial (timesLinear root p) = (X - C root.toComplex) * complexPolynomial p := by
  rw [timesLinear, complexPolynomial_timesLinearFrom, Cplx.toComplex_zero, C_0, zero_add]

/-- The product of the linear factors of some roots. -/
noncomputable def rootProduct (roots : List ℂ) : ℂ[X] := (roots.map fun w => X - C w).prod

/-- Multiplying by linear factors multiplies by the product over the roots. -/
theorem complexPolynomial_foldl (roots p : List (Cplx ℝ)) :
    complexPolynomial (roots.foldl (fun p z => timesLinear z p) p) =
      complexPolynomial p * rootProduct (roots.map Cplx.toComplex) := by
  induction roots generalizing p with
  | nil => simp [rootProduct]
  | cons z roots ih =>
      rw [List.foldl_cons, ih, complexPolynomial_timesLinear, rootProduct, rootProduct,
        List.map_cons, List.map_cons, List.prod_cons]
      ring

/-- **All passes** multiply by all linear factors. -/
theorem complexPolynomial_expand (f : Factorization ℝ) :
    complexPolynomial f.expand =
      C (f.leading : ℂ) * rootProduct (f.zeros.map Cplx.toComplex) := by
  have hsingle : complexPolynomial [Cplx.ofReal f.leading] = C (f.leading : ℂ) := by
    rw [complexPolynomial_cons, Cplx.toComplex_ofReal]
    simp [complexPolynomial]
  rw [expand_eq_foldl, ← hsingle]
  exact complexPolynomial_foldl f.zeros _

/-- Every factor adds a coefficient. -/
theorem length_foldl {α : Type} [Scalar α] (roots p : List (Cplx α)) :
    (roots.foldl (fun p z => timesLinear z p) p).length = p.length + roots.length := by
  induction roots generalizing p with
  | nil => rfl
  | cons z roots ih =>
      rw [List.foldl_cons, ih, timesLinear, length_timesLinearFrom, List.length_cons]
      omega

/-- Every pass adds a coefficient. -/
theorem length_expand {α : Type} [Scalar α] (f : Factorization α) :
    f.expand.length = 1 + (f.factors.map Root.multiplicity).sum := by
  have hzeros : f.zeros.length = (f.factors.map Root.multiplicity).sum := by
    simp [zeros, List.length_flatMap]
  rw [expand_eq_foldl, ← hzeros]
  exact length_foldl f.zeros _

/-- **The value of the product is that of the powers of the factors.** -/
theorem eval_rootProduct (f : Factorization ℝ) (z : ℂ) :
    (rootProduct (f.zeros.map Cplx.toComplex)).eval z =
      (f.factors.map fun r => (z - r.value.toComplex) ^ r.multiplicity).prod := by
  rw [rootProduct, zeros]
  induction f.factors with
  | nil => simp
  | cons r factors ih =>
      rw [List.flatMap_cons, List.map_append, List.map_append, List.prod_append, eval_mul, ih]
      simp [eval_pow]

/-- The value of coefficients at a point. -/
theorem sum_eq_eval (p : List (Cplx ℝ)) (z : ℂ) :
    ∑ k : Fin p.length, p[k].toComplex * z ^ (k : ℕ) = (complexPolynomial p).eval z := by
  induction p with
  | nil => simp [complexPolynomial]
  | cons c p ih =>
      have hshift (k : Fin p.length) : p[k].toComplex * z ^ ((k : ℕ) + 1) =
          z * (p[k].toComplex * z ^ (k : ℕ)) := by ring
      have hlowest : c.toComplex * z ^ 0 = c.toComplex := by rw [pow_zero, mul_one]
      rw [complexPolynomial_cons, eval_add, eval_C, eval_mul, eval_X, ← ih, Finset.mul_sum]
      exact (Fin.sum_univ_succ _).trans
        (congrArg₂ (· + ·) hlowest (Finset.sum_congr rfl fun k _ => hshift k))

/-! ## Real coefficients -/

/-- Conjugating the coefficients of a product of linear factors conjugates
the roots. -/
theorem map_conj_rootProduct (roots : List ℂ) :
    (rootProduct roots).map (starRingEnd ℂ) = rootProduct (roots.map conj) := by
  induction roots with
  | nil => simp [rootProduct]
  | cons w roots ih =>
      rw [List.map_cons, rootProduct, List.map_cons, List.prod_cons, Polynomial.map_mul,
        ← rootProduct, ih]
      simp [rootProduct]

/-- The product has the roots that it is made of. -/
theorem roots_rootProduct (roots : List ℂ) : (rootProduct roots).roots = ↑roots := by
  have hroots := roots_multiset_prod_X_sub_C (↑roots : Multiset ℂ)
  rwa [Multiset.map_coe, Multiset.prod_coe] at hroots

/-- The coefficients are real if the polynomial is its own conjugate. -/
theorem forall_im_iff (p : List (Cplx ℝ)) :
    (∀ c ∈ p, c.im = 0) ↔ (complexPolynomial p).map (starRingEnd ℂ) = complexPolynomial p := by
  have hconj : (∀ c ∈ p, c.im = 0) ↔ (p.map Cplx.toComplex).map conj = p.map Cplx.toComplex := by
    rw [List.map_map, List.map_inj_left]
    exact forall₂_congr fun c _ => (Complex.conj_eq_iff_im (z := c.toComplex)).symm
  rw [hconj, complexPolynomial, ← Dense.toPolynomial_map]
  constructor
  · intro h
    exact congrArg Dense.toPolynomial h
  · exact Dense.eq_of_length_eq (List.length_map _)

/-- **When the coefficients are real**: the roots are their own conjugates,
or everything is zero. -/
theorem forall_im_expand_iff (f : Factorization ℝ) :
    (∀ c ∈ f.expand, c.im = 0) ↔ f.leading = 0 ∨ (f.zeros.map Cplx.conj).Perm f.zeros := by
  have hconj : (f.zeros.map Cplx.toComplex).map conj =
      (f.zeros.map Cplx.conj).map Cplx.toComplex := by
    rw [List.map_map, List.map_map]
    rfl
  rw [forall_im_iff, complexPolynomial_expand, Polynomial.map_mul, map_C, Complex.conj_ofReal,
    map_conj_rootProduct, hconj, mul_eq_mul_left_iff, C_eq_zero, Complex.ofReal_eq_zero, or_comm,
    ← List.map_perm_map_iff Cplx.toComplex_injective]
  refine or_congr_right ⟨fun h => ?_, fun h => ?_⟩
  · rw [← Multiset.coe_eq_coe, ← roots_rootProduct, h, roots_rootProduct]
  · exact (h.map _).prod_eq

/-! ## The normal form -/

/-- **Nothing is lost** in the normal form of real coefficients. -/
theorem coefficient_toNormalForm {f : Factorization ℝ} (hreal : ∀ c ∈ f.expand, c.im = 0)
    (d : ℕ) : Cplx.ofReal (f.toNormalForm.coefficient d) = f.expand.getD d Cplx.zero := by
  rw [toNormalForm, NormalForm.coefficient_ofDense, List.getD_eq_getElem?_getD, List.getElem?_map]
  cases hget : f.expand[d]? with
  | none => rfl
  | some c =>
      have him : c.im = Scalar.zero :=
        (hreal c (List.mem_of_getElem? hget)).trans Exact.zero_eq.symm
      have hre : NormalForm.flush c.re = c.re := by
        by_cases hzero : c.re = 0 <;> simp [NormalForm.flush, hzero]
      rw [Option.map_some, Option.map_some, Option.getD_some, Option.getD_some, hre, Cplx.ofReal,
        ← him]

/-- **Multiplying out.**  There is one coefficient more than there are
roots, and as a polynomial they are the product of all factors with the
leading coefficient.  If the roots, counted with their multiplicities, are
closed under conjugation, then every coefficient is real, and the normal form
has all of them. -/
theorem expand_product (f : Factorization ℝ) :
    f.expand.length = 1 + (f.factors.map Root.multiplicity).sum ∧
      (∀ z : ℂ, ∑ k : Fin f.expand.length, (f.expand[k]).toComplex * z ^ (k : ℕ) =
        f.leading * (f.factors.map fun r => (z - r.value.toComplex) ^ r.multiplicity).prod) ∧
      ((f.zeros.map Cplx.conj).Perm f.zeros →
        (∀ c ∈ f.expand, c.im = 0) ∧
          ∀ d, Cplx.ofReal (f.toNormalForm.coefficient d) = f.expand.getD d Cplx.zero) := by
  refine ⟨length_expand f, fun z => ?_, fun hclosed => ?_⟩
  · rw [sum_eq_eval, complexPolynomial_expand, eval_mul, eval_C, eval_rootProduct]
  · have hreal := (forall_im_expand_iff f).mpr (Or.inr hclosed)
    exact ⟨hreal, coefficient_toNormalForm hreal⟩

/-- A double root on the axis, and two that are conjugate. -/
theorem expand_product_pair :
    let f : Factorization ℝ := ⟨2, [⟨⟨1, 0⟩, 2⟩, ⟨⟨1, 2⟩, 1⟩, ⟨⟨1, -2⟩, 1⟩]⟩
    (f.zeros.map Cplx.conj).Perm f.zeros ∧ (∀ c ∈ f.expand, c.im = 0) ∧
      ∀ d, Cplx.ofReal (f.toNormalForm.coefficient d) = f.expand.getD d Cplx.zero := by
  intro f
  have hfactors : ConjClosed f.factors := by
    simpa [ConjClosed, f, Root.conj, Cplx.conj] using List.Perm.swap _ _ _
  exact ⟨hfactors.zeros, (expand_product f).2.2 hfactors.zeros⟩

end Factorization

end Univariate
