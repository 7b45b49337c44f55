import Univariate.Proofs.Checked.Access
import Univariate.Proofs.Dense.Polynomial
import Univariate.Proofs.Exact.Complex
import Univariate.Proofs.NormalForm.Coefficients
import Univariate.Roots.Iteration

/-!
# Horner schemes

A polynomial is evaluated in three ways: over its terms at a real number,
over its terms at a complex number, with a power for every gap between two
degrees, and over all its coefficients, where the value of the derivative
comes along.  Over the reals all of them give the value of the polynomial
that the terms make up.  After the terms down to some degree the sparse
schemes hold the value of what these terms are when divided by the power of
that degree; after the coefficients from some degree on upwards the dense
one holds the values of what those make up, and of its derivative.

* `Checked.hornerFrom`, `Checked.eval`, `Checked.evalCplx` — the sparse
  schemes with every difference of degrees checked;
* `NormalForm.toPolynomial`, `NormalForm.toPolynomial_coefficients` — what
  the terms make up, and that all coefficients make up the same;
* `NormalForm.toComplex_evalCplx`, `NormalForm.evalCplx_ofReal` — the
  sparse schemes;
* `Roots.toComplex_hornerPair` — the dense one;
* `NormalForm.horner_agree` — all of them together.
-/

namespace Univariate

open Polynomial
open scoped Exact

/-! ## Gaps between degrees -/

namespace NormalForm

variable {α : Type}

/-- No term is above the first one. -/
theorem le_of_degree? {p : NormalForm α} (hp : p.terms.Pairwise fun s t => t.1 < s.1) {n : ℕ}
    (hn : p.degree? = some n) : ∀ t ∈ p.terms, t.1 ≤ n := by
  obtain ⟨terms⟩ := p
  cases terms with
  | nil => cases hn
  | cons s terms =>
      obtain rfl : s.1 = n := Option.some.inj hn
      exact List.forall_mem_cons.mpr ⟨le_rfl, fun t ht => ((List.pairwise_cons.mp hp).1 t ht).le⟩

end NormalForm

namespace Checked

variable {α β : Type}

/-- The Horner scheme over terms, each gap between two degrees checked:
`raise s n` is `s` times the `n`-th power of the point, and `add s c` takes
a coefficient in. -/
def hornerFrom (raise : β → ℕ → β) (add : β → α → β) (acc : β) (above : ℕ) :
    List (ℕ × α) → Checked β
  | [] => return raise acc above
  | (d, c) :: rest => do
    let gap ← minus above d
    hornerFrom raise add (add (raise acc gap) c) d rest

/-- The value at a number. -/
def eval [Scalar α] (p : NormalForm α) (x : α) : Checked α :=
  match p.degree? with
  | none => return Scalar.zero
  | some degree =>
    hornerFrom (fun s n => s * Scalar.pow x n) (· + ·) Scalar.zero degree p.terms

/-- The value at a complex number. -/
def evalCplx [Scalar α] (p : NormalForm α) (z : Cplx α) : Checked (Cplx α) :=
  match p.degree? with
  | none => return Cplx.zero
  | some degree => hornerFrom (fun s n => s * z.pow n) Cplx.addReal Cplx.zero degree p.terms

/-- **Decreasing degrees have gaps**: the scheme never runs into a
difference below zero, and so it is the one without checks. -/
theorem hornerFrom_eq {raise : β → ℕ → β} {add : β → α → β} (run : β → ℕ → List (ℕ × α) → β)
    (hnil : ∀ acc above, run acc above [] = raise acc above)
    (hcons : ∀ acc above d c rest,
      run acc above ((d, c) :: rest) = run (add (raise acc (above - d)) c) d rest)
    {terms : List (ℕ × α)} (hterms : terms.Pairwise fun s t => t.1 < s.1) {above : ℕ}
    (habove : ∀ t ∈ terms, t.1 ≤ above) (acc : β) :
    hornerFrom raise add acc above terms = .ok (run acc above terms) := by
  induction terms generalizing acc above with
  | nil => rw [hornerFrom, hnil, pure_eq]
  | cons t terms ih =>
      obtain ⟨hbelow, hterms⟩ := List.pairwise_cons.mp hterms
      have hgap : t.1 ≤ above := habove t List.mem_cons_self
      rw [hornerFrom, minus_of_le hgap, ok_bind, hcons]
      exact ih hterms (fun s hs => (hbelow s hs).le) _

variable [Scalar α] {p : NormalForm α}

/-- **Evaluating succeeds** on a canonical form, with the value of the Horner
scheme. -/
theorem eval_eq (hp : p.Canonical) (x : α) : eval p x = .ok (p.eval x) := by
  rw [eval, NormalForm.eval]
  cases hn : p.degree? with
  | none => rfl
  | some n =>
      exact hornerFrom_eq (NormalForm.hornerFrom x) (fun _ _ => rfl)
        (fun _ _ _ _ _ => rfl) hp.1 (NormalForm.le_of_degree? hp.1 hn) _

/-- The same for a complex point. -/
theorem evalCplx_eq (hp : p.Canonical) (z : Cplx α) : evalCplx p z = .ok (p.evalCplx z) := by
  rw [evalCplx, NormalForm.evalCplx]
  cases hn : p.degree? with
  | none => rfl
  | some n =>
      exact hornerFrom_eq (NormalForm.hornerFromCplx z) (fun _ _ => rfl)
        (fun _ _ _ _ _ => rfl) hp.1 (NormalForm.le_of_degree? hp.1 hn) _

end Checked

/-! ## The polynomial of the terms -/

namespace NormalForm

section Polynomial

variable {α : Type} [Field α]

/-- The polynomial with these terms. -/
noncomputable def toPolynomial (p : NormalForm α) : α[X] :=
  (p.terms.map fun t => monomial t.1 t.2).sum

@[simp] theorem toPolynomial_nil : toPolynomial (⟨[]⟩ : NormalForm α) = 0 := rfl

@[simp] theorem toPolynomial_cons (d : ℕ) (c : α) (terms : List (ℕ × α)) :
    toPolynomial ⟨(d, c) :: terms⟩ = monomial d c + toPolynomial ⟨terms⟩ := rfl

/-- The order of the terms does not matter. -/
theorem toPolynomial_reverse (terms : List (ℕ × α)) :
    toPolynomial ⟨terms.reverse⟩ = toPolynomial ⟨terms⟩ := by
  rw [toPolynomial, List.map_reverse, List.sum_reverse]
  rfl

variable [LinearOrder α]

/-- Zeros in the gaps add nothing. -/
theorem X_pow_mul_fillGaps {k : ℕ} {terms : List (ℕ × α)}
    (hascending : terms.Pairwise (·.1 < ·.1)) (hfrom : ∀ t ∈ terms, k ≤ t.1) :
    X ^ k * Dense.toPolynomial (fillGaps k terms) = toPolynomial ⟨terms⟩ := by
  induction terms generalizing k with
  | nil => exact mul_zero _
  | cons t terms ih =>
      obtain ⟨d, c⟩ := t
      obtain ⟨habove, htail⟩ := List.pairwise_cons.mp hascending
      have hk : k ≤ d := hfrom (d, c) List.mem_cons_self
      have hzeros : Dense.toPolynomial (List.replicate (d - k) (Scalar.zero : α)) = 0 :=
        Dense.toPolynomial_eq_zero_of_forall fun b hb =>
          (List.eq_of_mem_replicate hb).trans Exact.zero_eq
      rw [fillGaps, Dense.toPolynomial_append, hzeros, zero_add, List.length_replicate,
        Dense.toPolynomial_cons, ← mul_assoc, ← pow_add, Nat.add_sub_cancel' hk, mul_add,
        ← mul_assoc, ← pow_succ, ih htail fun s hs => habove s hs, toPolynomial_cons,
        ← C_mul_X_pow_eq_monomial, mul_comm (X ^ d)]

/-- **All coefficients** make up what the terms do. -/
theorem toPolynomial_coefficients {p : NormalForm α} (hp : p.Canonical) :
    Dense.toPolynomial p.coefficients = p.toPolynomial := by
  have hascending : p.terms.reverse.Pairwise (·.1 < ·.1) := List.pairwise_reverse.mpr hp.1
  have hsum := X_pow_mul_fillGaps hascending fun t _ => Nat.zero_le t.1
  rw [pow_zero, one_mul, toPolynomial_reverse] at hsum
  exact hsum

end Polynomial

/-! ## The sparse schemes -/

variable {p : NormalForm ℝ}

/-- **The sparse scheme on its way**: what has been summed up counts with
the power of the last degree. -/
theorem toComplex_hornerFromCplx (z acc : Cplx ℝ) {above : ℕ} {terms : List (ℕ × ℝ)}
    (hterms : terms.Pairwise fun s t => t.1 < s.1) (habove : ∀ t ∈ terms, t.1 ≤ above) :
    (hornerFromCplx z acc above terms).toComplex =
      acc.toComplex * z.toComplex ^ above + aeval z.toComplex (toPolynomial ⟨terms⟩) := by
  induction terms generalizing acc above with
  | nil => rw [hornerFromCplx, Cplx.toComplex_mul, Cplx.toComplex_pow, toPolynomial_nil,
      map_zero, add_zero]
  | cons t terms ih =>
      obtain ⟨d, c⟩ := t
      obtain ⟨hbelow, hterms⟩ := List.pairwise_cons.mp hterms
      have hgap : above - d + d = above := Nat.sub_add_cancel (habove (d, c) List.mem_cons_self)
      rw [hornerFromCplx, ih _ hterms fun s hs => (hbelow s hs).le, Cplx.toComplex_addReal,
        Cplx.toComplex_mul, Cplx.toComplex_pow, add_mul, mul_assoc, ← pow_add, hgap,
        toPolynomial_cons, map_add, aeval_monomial, Complex.coe_algebraMap, add_assoc]

/-- **The value at a complex number.** -/
theorem toComplex_evalCplx (hp : p.Canonical) (z : Cplx ℝ) :
    (p.evalCplx z).toComplex = aeval z.toComplex p.toPolynomial := by
  rw [evalCplx]
  cases hn : p.degree? with
  | none =>
      have hterms : p.terms = [] := by simpa [degree?] using hn
      rw [toPolynomial, hterms, List.map_nil, List.sum_nil, map_zero]
      exact Cplx.toComplex_zero
  | some n =>
      have hrun := toComplex_hornerFromCplx z Cplx.zero hp.1 (le_of_degree? hp.1 hn)
      rwa [Cplx.toComplex_zero, zero_mul, zero_add] at hrun

/-- One gap is jumped over, with real numbers as complex ones. -/
theorem ofReal_mul_pow (acc x : ℝ) (n : ℕ) :
    Cplx.ofReal acc * (Cplx.ofReal x).pow n = Cplx.ofReal (acc * Scalar.pow x n) := by
  refine Cplx.toComplex_injective ?_
  rw [Cplx.toComplex_mul, Cplx.toComplex_pow, Exact.pow_eq]
  simp

/-- On the real axis the complex scheme gives what the real one gives. -/
theorem hornerFromCplx_ofReal (x acc : ℝ) (above : ℕ) (terms : List (ℕ × ℝ)) :
    hornerFromCplx (Cplx.ofReal x) (Cplx.ofReal acc) above terms =
      Cplx.ofReal (hornerFrom x acc above terms) := by
  induction terms generalizing acc above with
  | nil => exact ofReal_mul_pow acc x above
  | cons t terms ih =>
      rw [hornerFromCplx, ofReal_mul_pow, hornerFrom]
      exact ih _ _

/-- **The value at a real number** is real, and that of the real scheme. -/
theorem evalCplx_ofReal (p : NormalForm ℝ) (x : ℝ) :
    p.evalCplx (Cplx.ofReal x) = Cplx.ofReal (p.eval x) := by
  rw [evalCplx, eval]
  cases p.degree? with
  | none => rfl
  | some n => exact hornerFromCplx_ofReal x Scalar.zero n p.terms

end NormalForm

/-! ## The dense scheme -/

namespace Roots

/-- **The dense scheme** carries the value of the coefficients above a
degree and that of their derivative: with one more coefficient below,
`(c + x f)' = f + x f'`. -/
theorem toComplex_hornerPair (z : Cplx ℝ) (p : Dense ℝ) :
    (hornerPair z p).1.toComplex = aeval z.toComplex (Dense.toPolynomial p) ∧
      (hornerPair z p).2.toComplex = aeval z.toComplex (derivative (Dense.toPolynomial p)) := by
  induction p with
  | nil => simp [hornerPair]
  | cons c p ih =>
      obtain ⟨hvalue, hslope⟩ := ih
      rw [hornerPair, Dense.toPolynomial_cons]
      constructor
      · rw [Cplx.toComplex_addReal, Cplx.toComplex_mul, hvalue, map_add, map_mul, aeval_C, aeval_X,
          Complex.coe_algebraMap]
        ring
      · rw [Cplx.toComplex_add, Cplx.toComplex_mul, hvalue, hslope, derivative_add, derivative_C,
          zero_add, derivative_mul, derivative_X, one_mul, map_add, map_mul, aeval_X]
        ring

end Roots

/-! ## Agreement -/

namespace NormalForm

open Roots (hornerPair)

/-- **Horner schemes agree.**  Whatever the arithmetic is, the differences of
degrees that the sparse schemes take are none below zero.  Over the reals,
the dense scheme on all coefficients gives the values of the polynomial and
of its derivative; the first is what the sparse scheme gives, and the second
is the value of the coefficients of the derivative; and at a real number the
two sparse schemes give the same. -/
theorem horner_agree :
    (∀ {α : Type} [Scalar α] (p : NormalForm α), p.Canonical → ∀ (x : α) (z : Cplx α),
      Checked.eval p x = .ok (p.eval x) ∧ Checked.evalCplx p z = .ok (p.evalCplx z)) ∧
    ∀ p : NormalForm ℝ, p.Canonical → ∀ (z : Cplx ℝ) (x : ℝ),
      (hornerPair z p.coefficients).1.toComplex = aeval z.toComplex p.toPolynomial ∧
      (hornerPair z p.coefficients).2.toComplex =
        aeval z.toComplex (derivative p.toPolynomial) ∧
      (hornerPair z p.coefficients).1 = p.evalCplx z ∧
      (hornerPair z p.coefficients).2 = (hornerPair z (Dense.derivative p.coefficients)).1 ∧
      (hornerPair z p.coefficients).2.toComplex =
        aeval z.toComplex (Dense.toPolynomial (Dense.derivative p.coefficients)) ∧
      p.evalCplx (Cplx.ofReal x) = Cplx.ofReal (p.eval x) := by
  refine ⟨fun p hp x z => ⟨Checked.eval_eq hp x, Checked.evalCplx_eq hp z⟩, fun p hp z x => ?_⟩
  obtain ⟨hvalue, hslope⟩ := Roots.toComplex_hornerPair z p.coefficients
  have hderivative := (Roots.toComplex_hornerPair z (Dense.derivative p.coefficients)).1
  rw [Dense.toPolynomial_derivative] at hderivative ⊢
  have hsparse : (hornerPair z p.coefficients).1 = p.evalCplx z := by
    refine Cplx.toComplex_injective ?_
    rw [hvalue, toPolynomial_coefficients hp, toComplex_evalCplx hp]
  have hdense : (hornerPair z p.coefficients).2 =
      (hornerPair z (Dense.derivative p.coefficients)).1 :=
    Cplx.toComplex_injective (hslope.trans hderivative.symm)
  have hslope' := hslope
  rw [toPolynomial_coefficients hp] at hvalue hslope
  exact ⟨hvalue, hslope, hsparse, hdense, hslope', evalCplx_ofReal p x⟩

/-- The polynomial `x³ - 2x`, which has gaps, at `i` and at `2`. -/
theorem horner_agree_cubic :
    let p : NormalForm ℝ := ⟨[(3, 1), (1, -2)]⟩
    p.Canonical ∧ (p.evalCplx ⟨0, 1⟩).toComplex = -3 * Complex.I ∧
      (hornerPair ⟨0, 1⟩ p.coefficients).1 = p.evalCplx ⟨0, 1⟩ ∧
      (hornerPair ⟨0, 1⟩ p.coefficients).2.toComplex = -5 ∧
      p.evalCplx (Cplx.ofReal 2) = Cplx.ofReal 4 ∧ Checked.eval p 2 = .ok 4 := by
  intro p
  have hp : p.Canonical := ⟨by simp [p], by simp [p]⟩
  have hcube : Complex.I ^ 3 = -Complex.I := Complex.I_pow_three
  have htwo : p.eval 2 = 4 := by
    norm_num [p, eval, degree?, hornerFrom, Exact.pow_eq]
  obtain ⟨hvalue, hslope, hsparse, -, -, hreal⟩ := horner_agree.2 p hp ⟨0, 1⟩ 2
  have hchecked := (horner_agree.1 p hp 2 ⟨0, 1⟩).1
  rw [htwo] at hreal hchecked
  have hI : Cplx.toComplex ⟨0, 1⟩ = Complex.I := rfl
  refine ⟨hp, ?_, hsparse, ?_, hreal, hchecked⟩
  · rw [← hsparse, hvalue, hI]
    simp only [p, toPolynomial_cons, toPolynomial_nil, map_add, aeval_monomial, map_zero, map_neg,
      map_one, map_ofNat, hcube]
    ring
  · rw [hslope, hI]
    simp only [p, toPolynomial_cons, toPolynomial_nil, map_add, derivative_monomial,
      aeval_monomial, map_zero, map_mul, map_neg, map_one, map_ofNat, map_natCast]
    norm_num

end NormalForm

end Univariate
