import Univariate.Proofs.Squarefree.Splitting
import Univariate.Squarefree

/-!
# The passes of the decomposition

One pass looks at a pair of polynomials and either finds that nothing is
left to split or divides one factor out of both.  Beside the factors that
the passes find stand the tests that they make and the way they end: by one
of the two breaks, or by being used up.  Where no test discards anything
but zeros, every pass is a splitting of what the pass before has left.

* `Squarefree.Pass`, `Squarefree.pass` — one pass, with
  `Squarefree.passes_succ` for the loop;
* `Squarefree.passesTests`, `Squarefree.EndsByBreak` — the tests, and the
  way the loop ends;
* `Squarefree.Factors` — what the factors of a polynomial have to satisfy;
* `Squarefree.eq_of_pass_vanishes`, `Squarefree.splits_of_pass` — one pass
  without losses;
* `Squarefree.passes_of_tests` — the loop.
-/

namespace Univariate

namespace Squarefree

open Polynomial
open Univariate.Dense (toPolynomial Reduced Test IsGcd)
open scoped Exact

/-! ## One pass -/

section Pass

variable {α : Type} [Scalar α]

/-- What a pass comes to. -/
inductive Pass (α : Type) where
  /-- The difference vanishes, and the last factor is there. -/
  | vanishes
  /-- A factor, and what is left of both polynomials without it. -/
  | divides (factor next rest : Dense α)
deriving DecidableEq

/-- What is compared with zero: the second polynomial without the
derivative of the first one. -/
def difference (a b : Dense α) : Dense α := Dense.sub b (Dense.derivative a)

/-- The tolerance of the comparison. -/
def passTolerance (a b : Dense α) : α :=
  Scalar.gcdTolerance *
    Scalar.max (Scalar.max (Dense.norm b) (Dense.norm (Dense.derivative a))) Scalar.one

/-- The difference without what it has in negligible coefficients. -/
def trimmedDifference (a b : Dense α) : Dense α :=
  Dense.trim (difference a b) (passTolerance a b)

/-- One pass. -/
def pass (a b : Dense α) : Pass α :=
  if Dense.isNegligible (difference a b) (passTolerance a b) then .vanishes
  else
    let c := trimmedDifference a b
    let d := Dense.gcd a c
    .divides d (Dense.quotient a d) (Dense.quotient c d)

/-- A small difference ends the loop. -/
theorem pass_of_negligible {a b : Dense α}
    (h : Dense.isNegligible (difference a b) (passTolerance a b) = true) :
    pass a b = .vanishes := if_pos h

/-- Any other difference gives a divisor and the operands of the next pass. -/
theorem pass_of_kept {a b : Dense α}
    (h : ¬Dense.isNegligible (difference a b) (passTolerance a b) = true) :
    pass a b = .divides (Dense.gcd a (trimmedDifference a b))
      (Dense.quotient a (Dense.gcd a (trimmedDifference a b)))
      (Dense.quotient (trimmedDifference a b) (Dense.gcd a (trimmedDifference a b))) := if_neg h

/-- A polynomial counts as a factor unless it is constant. -/
def found (d : Dense α) (multiplicity : ℕ) : List (Factor α) :=
  if 0 < Dense.degree d then [⟨d, multiplicity⟩] else []

/-- One pass, and those that are left. -/
theorem passes_succ (more multiplicity : ℕ) (a b : Dense α) :
    passes (more + 1) multiplicity a b =
      match pass a b with
      | .vanishes => found a multiplicity
      | .divides d next rest =>
        if Dense.degree next = 0 then found d multiplicity
        else found d multiplicity ++ passes more (multiplicity + 1) next rest := by
  by_cases h : Dense.isNegligible (difference a b) (passTolerance a b) = true
  · rw [pass_of_negligible h]
    exact if_pos h
  · rw [pass_of_kept h]
    exact if_neg h

/-- The tests of one pass.  Whether the difference vanishes and how it is
trimmed is one test. -/
def passTests (a b : Dense α) : List (Test α) :=
  ⟨difference a b, passTolerance a b⟩ ::
    if Dense.isNegligible (difference a b) (passTolerance a b) then []
    else Dense.gcdTests a (trimmedDifference a b)

/-- The tests of the loop. -/
def passesTests : ℕ → Dense α → Dense α → List (Test α)
  | 0, _, _ => []
  | more + 1, a, b =>
    passTests a b ++
      match pass a b with
      | .vanishes => []
      | .divides _ next rest =>
        if Dense.degree next = 0 then [] else passesTests more next rest

/-- The loop ends because the difference vanishes or because nothing is
left of the first polynomial, and not because its passes are used up. -/
def EndsByBreak : ℕ → Dense α → Dense α → Prop
  | 0, _, _ => False
  | more + 1, a, b =>
    match pass a b with
    | .vanishes => True
    | .divides _ next rest => Dense.degree next = 0 ∨ EndsByBreak more next rest

end Pass

/-! ## Factors -/

variable {α : Type} [Field α]

/-- The factors have the product `f` in their powers, counted from
`multiplicity`, and the product `a` without them; each is monic and not
constant, and multiplicities ascend. -/
structure Factors (f a : α[X]) (multiplicity : ℕ) (factors : List (Factor α)) : Prop where
  product : (factors.map fun F =>
    toPolynomial F.polynomial ^ (F.multiplicity + 1 - multiplicity)).prod = f
  simple : (factors.map fun F => toPolynomial F.polynomial).prod = a
  reduced : ∀ F ∈ factors, Reduced F.polynomial
  monic : ∀ F ∈ factors, (toPolynomial F.polynomial).Monic
  nonconstant : ∀ F ∈ factors, 0 < Dense.degree F.polynomial
  above : ∀ F ∈ factors, multiplicity ≤ F.multiplicity
  ascending : (factors.map Factor.multiplicity).Pairwise (· < ·)

namespace Factors

variable {f rest a a' : α[X]} {d : Dense α} {multiplicity : ℕ} {factors : List (Factor α)}

/-- A single factor. -/
theorem single (hd : Reduced d) (hmonic : (toPolynomial d).Monic)
    (hpositive : 0 < Dense.degree d) (multiplicity : ℕ) :
    Factors (toPolynomial d) (toPolynomial d) multiplicity [⟨d, multiplicity⟩] where
  product := by simp
  simple := by simp
  reduced := by simpa using hd
  monic := by simpa using hmonic
  nonconstant := by simpa using hpositive
  above := by simp
  ascending := List.pairwise_singleton _ _

/-- What has been found after the factor of this multiplicity has been
divided out counts one more when seen from before. -/
theorem product_before (h : Factors rest a' (multiplicity + 1) factors) :
    (factors.map fun F =>
      toPolynomial F.polynomial ^ (F.multiplicity + 1 - multiplicity)).prod = a' * rest := by
  rw [← h.simple, ← h.product, ← List.prod_map_mul]
  congr 1
  refine List.map_congr_left fun F hF => ?_
  have habove := h.above F hF
  rw [← pow_succ']
  exact congrArg _ (by omega)

/-- **A factor is divided out.** -/
theorem divide [LinearOrder α] (h : Factors rest a' (multiplicity + 1) factors)
    (hd : Reduced d) (hmonic : (toPolynomial d).Monic) (ha : a' * toPolynomial d = a)
    (hf : a * rest = f) : Factors f a multiplicity (found d multiplicity ++ factors) := by
  have hbefore := h.product_before
  have habove : ∀ F ∈ factors, multiplicity ≤ F.multiplicity := fun F hF =>
    (Nat.le_succ _).trans (h.above F hF)
  unfold found
  split_ifs with hpositive
  · have hsingle := single hd hmonic hpositive multiplicity
    refine ⟨?_, ?_, ?_, ?_, ?_, ?_, ?_⟩
    · rw [List.map_append, List.prod_append, hbefore, hsingle.product, ← hf, ← ha]
      ring
    · rw [List.map_append, List.prod_append, h.simple, hsingle.simple, ← ha, mul_comm]
    · exact List.forall_mem_append.mpr ⟨hsingle.reduced, h.reduced⟩
    · exact List.forall_mem_append.mpr ⟨hsingle.monic, h.monic⟩
    · exact List.forall_mem_append.mpr ⟨hsingle.nonconstant, h.nonconstant⟩
    · exact List.forall_mem_append.mpr ⟨hsingle.above, habove⟩
    · rw [List.singleton_append, List.map_cons, List.pairwise_cons]
      refine ⟨fun m hm => ?_, h.ascending⟩
      obtain ⟨F, hF, rfl⟩ := List.mem_map.mp hm
      exact h.above F hF
  · -- A constant divisor is one, and nothing has been divided out.
    have hone : toPolynomial d = 1 := by
      refine hmonic.natDegree_eq_zero.mp ?_
      rw [hd.natDegree_eq]
      omega
    rw [hone, mul_one] at ha
    rw [List.nil_append]
    exact ⟨by rw [hbefore, ha, hf], ha ▸ h.simple, h.reduced, h.monic, h.nonconstant, habove,
      h.ascending⟩

end Factors

/-! ## The loop -/

variable [LinearOrder α]

/-- The difference is that of the second operand and the slope of the first. -/
theorem toPolynomial_difference (a b : Dense α) :
    toPolynomial (difference a b) = toPolynomial b - derivative (toPolynomial a) := by
  rw [difference, Dense.toPolynomial_sub, Dense.toPolynomial_derivative]

variable [IsStrictOrderedRing α]

theorem passTolerance_nonneg (a b : Dense α) : 0 ≤ passTolerance a b := by
  rw [passTolerance, Exact.max_eq, Exact.max_eq]
  exact mul_nonneg Exact.gcdTolerance_pos.le
    ((Exact.norm_nonneg b).trans ((le_max_left _ _).trans (le_max_left _ _)))

/-- The tolerance is a billionth of the largest coefficient. -/
theorem passTolerance_lt_iff (a b : Dense α) (c : α) :
    passTolerance a b < c ↔ Dense.norm b < 10 ^ 9 * c ∧
      Dense.norm (Dense.derivative a) < 10 ^ 9 * c ∧ 1 < 10 ^ 9 * c := by
  rw [passTolerance, Exact.max_eq, Exact.max_eq, Exact.gcdTolerance_eq, Exact.one_eq, one_div,
    inv_mul_lt_iff₀ (by positivity), max_lt_iff, max_lt_iff, and_assoc]

/-- What is not negligible does not vanish. -/
theorem difference_ne_zero {a b : Dense α}
    (h : ¬Dense.isNegligible (difference a b) (passTolerance a b) = true) :
    toPolynomial b - derivative (toPolynomial a) ≠ 0 := by
  rw [← toPolynomial_difference]
  intro hzero
  refine h (List.all_eq_true.mpr fun c hc => ?_)
  rw [Dense.forall_eq_zero_of_toPolynomial hzero c hc]
  simpa [Dense.negligible] using passTolerance_nonneg a b

/-- **The last pass.**  Where the difference vanishes, all is split off. -/
theorem eq_of_pass_vanishes {a b : Dense α} {f rest : α[X]}
    (h : Splits f rest (toPolynomial a) (toPolynomial b))
    (htests : ∀ t ∈ passTests a b, t.DropsZeros) (hpass : pass a b = .vanishes) :
    toPolynomial a = f := by
  have hnegligible : Dense.isNegligible (difference a b) (passTolerance a b) = true := by
    by_contra hkept
    rw [pass_of_kept hkept] at hpass
    cases hpass
  rw [passTests] at htests
  have htest := (List.forall_mem_cons.mp htests).1
  rw [Test.DropsZeros, Dense.discarded_of_isNegligible hnegligible] at htest
  refine (h.eq_of_vanishes ?_).2
  rw [← toPolynomial_difference]
  exact Dense.toPolynomial_eq_zero_of_forall htest

/-- **Every other pass is one splitting**, by a divisor of the first
polynomial. -/
theorem splits_of_pass {a b d next later : Dense α} {f rest : α[X]} (ha : Reduced a)
    (h : Splits f rest (toPolynomial a) (toPolynomial b))
    (htests : ∀ t ∈ passTests a b, t.DropsZeros) (hpass : pass a b = .divides d next later) :
    Reduced d ∧ (toPolynomial d).Monic ∧ Reduced next ∧
      toPolynomial next * toPolynomial d = toPolynomial a ∧
      ∃ rest', Splits rest rest' (toPolynomial next) (toPolynomial later) := by
  have hkept : ¬Dense.isNegligible (difference a b) (passTolerance a b) = true := by
    intro hnegligible
    rw [pass_of_negligible hnegligible] at hpass
    cases hpass
  rw [passTests, if_neg hkept] at htests
  obtain ⟨htest, hgcdTests⟩ := List.forall_mem_cons.mp htests
  have hc : Reduced (trimmedDifference a b) := Dense.reduced_trim _ (passTolerance_nonneg a b)
  have hcvalue : toPolynomial (trimmedDifference a b) =
      toPolynomial b - derivative (toPolynomial a) :=
    (Dense.toPolynomial_trim htest).trans (toPolynomial_difference a b)
  have hne : a ≠ [] := by
    rintro rfl
    exact h.monic_simple.ne_zero rfl
  obtain ⟨hd, hmonic, hgcd⟩ := Dense.gcd_of_tests ha hne hgcdTests
  rw [pass_of_kept hkept] at hpass
  obtain ⟨hdivisor, hnext, hlater⟩ := Pass.divides.inj hpass
  rw [hdivisor] at hd hmonic hgcd hnext hlater
  subst hnext hlater
  have hdne : d ≠ [] := by
    rintro rfl
    exact hmonic.ne_zero rfl
  have hleft := Dense.quotient_mul hd hdne hgcd.dvd_left
  have hright := Dense.quotient_mul hd hdne hgcd.dvd_right
  have hreduced := Dense.reduced_quotient ha hd hdne hgcd.dvd_left
  rw [hcvalue] at hgcd hright
  exact ⟨hd, hmonic, hreduced, hleft, h.next (difference_ne_zero hkept) hmonic hgcd hleft hright⟩

/-- **The loop.**  If no test discards anything but zeros, and there are
more passes than the degree of what has been split off, then the loop ends
by a break and finds the factors. -/
theorem passes_of_tests {more : ℕ} (multiplicity : ℕ) {a b : Dense α} {f rest : α[X]}
    (ha : Reduced a) (h : Splits f rest (toPolynomial a) (toPolynomial b))
    (htests : ∀ t ∈ passesTests more a b, t.DropsZeros) (hmore : rest.natDegree < more) :
    EndsByBreak more a b ∧ Factors f (toPolynomial a) multiplicity
      (passes more multiplicity a b) := by
  induction more generalizing multiplicity a b f rest with
  | zero => cases hmore
  | succ more ih =>
      rw [passesTests, List.forall_mem_append] at htests
      obtain ⟨htests, hlater⟩ := htests
      rw [EndsByBreak, passes_succ]
      cases hpass : pass a b with
      | vanishes =>
          have hpositive : 0 < Dense.degree a := ha.natDegree_eq ▸ h.nonconstant_simple
          refine ⟨trivial, ?_⟩
          rw [← eq_of_pass_vanishes h htests hpass]
          dsimp only
          rw [found, if_pos hpositive]
          exact .single ha h.monic_simple hpositive multiplicity
      | divides d next later =>
          obtain ⟨hd, hmonic, hreduced, hproduct, rest', hnext⟩ :=
            splits_of_pass ha h htests hpass
          have hnonconstant : Dense.degree next ≠ 0 := by
            rw [← hreduced.natDegree_eq]
            exact hnext.nonconstant_simple.ne'
          have hdecreases := hnext.natDegree_rest_lt
          rw [hpass] at hlater
          dsimp only at hlater ⊢
          rw [if_neg hnonconstant] at hlater ⊢
          obtain ⟨hends, hfactors⟩ := ih (multiplicity + 1) hreduced hnext hlater (by omega)
          exact ⟨Or.inr hends, hfactors.divide hd hmonic hproduct h.simple⟩

end Squarefree

end Univariate
