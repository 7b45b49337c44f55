import Univariate.Proofs.Squarefree.Passes

/-!
# The square-free decomposition

Where the tolerances drop nothing but zeros, the decomposition is Yun's
algorithm: the factors are monic, without repeated factors and without
common ones, their multiplicities ascend, and the polynomial is their
product in these powers times its leading coefficient.

* `Squarefree.decomposeTests` — the tests of a decomposition;
* `Squarefree.totalDegree_eq` — the degrees add up;
* `Squarefree.decompose_of_tests` — the decomposition as a splitting and
  its passes;
* `Squarefree.decompose_factors` — what its factors are.
-/

namespace Univariate

namespace Squarefree

open Polynomial
open Univariate.Dense (toPolynomial Reduced Test)
open scoped Exact

/-! ## The start of the loop -/

section Start

variable {α : Type} [Scalar α]

/-- The greatest common divisor of a polynomial and its derivative. -/
def commonDivisor (p : Dense α) : Dense α :=
  Dense.gcd (Dense.makeMonic p) (Dense.derivative (Dense.makeMonic p))

/-- The polynomial without what it has in common with its derivative. -/
def simplePart (p : Dense α) : Dense α :=
  Dense.quotient (Dense.makeMonic p) (commonDivisor p)

/-- The derivative without what it has in common with the polynomial. -/
def slopePart (p : Dense α) : Dense α :=
  Dense.quotient (Dense.derivative (Dense.makeMonic p)) (commonDivisor p)

/-- The number of passes that the loop has at its disposal. -/
def passCount (p : Dense α) : ℕ := Dense.degree (Dense.makeMonic p) + 1

/-- The decomposition is one factor if there is no common divisor, or else the
passes of the loop. -/
theorem decompose_eq (p : Dense α) :
    decompose p =
      if Dense.degree (commonDivisor p) = 0 then [⟨Dense.makeMonic p, 1⟩]
      else passes (passCount p) 1 (simplePart p) (slopePart p) := rfl

/-- All tests of a decomposition. -/
def decomposeTests (p : Dense α) : List (Test α) :=
  Dense.gcdTests (Dense.makeMonic p) (Dense.derivative (Dense.makeMonic p)) ++
    if Dense.degree (commonDivisor p) = 0 then []
    else passesTests (passCount p) (simplePart p) (slopePart p)

end Start

/-! ## Degrees -/

variable {α : Type} [Field α]

/-- **The degrees of the factors add up** to the degree of their
product. -/
theorem totalDegree_eq {factors : List (Factor α)} (hreduced : ∀ F ∈ factors, Reduced F.polynomial)
    (hmonic : ∀ F ∈ factors, (toPolynomial F.polynomial).Monic) :
    totalDegree factors =
      (factors.map fun F => toPolynomial F.polynomial ^ F.multiplicity).prod.natDegree := by
  induction factors with
  | nil => simp [totalDegree]
  | cons F factors ih =>
      rw [List.forall_mem_cons] at hreduced hmonic
      have hrest :
          (factors.map fun F => toPolynomial F.polynomial ^ F.multiplicity).prod.Monic := by
        rw [← Multiset.prod_coe, ← Multiset.map_coe]
        exact monic_multiset_prod_of_monic _ _ fun G hG => (hmonic.2 G hG).pow _
      rw [List.map_cons, List.prod_cons, (hmonic.1.pow _).natDegree_mul hrest,
        hmonic.1.natDegree_pow, hreduced.1.natDegree_eq, ← ih hreduced.2 hmonic.2]
      rfl

/-- Factors of a square-free product have no repeated factors, and no
common ones. -/
theorem pairwise_isCoprime {factors : List (Factor α)}
    (h : Squarefree (factors.map fun F => toPolynomial F.polynomial).prod) :
    (∀ F ∈ factors, Squarefree (toPolynomial F.polynomial)) ∧
      factors.Pairwise fun F G => IsCoprime (toPolynomial F.polynomial)
        (toPolynomial G.polynomial) := by
  induction factors with
  | nil => exact ⟨nofun, List.Pairwise.nil⟩
  | cons F factors ih =>
      rw [List.map_cons, List.prod_cons, squarefree_mul_iff] at h
      obtain ⟨hprime, hfirst, hrest⟩ := h
      obtain ⟨hsquarefree, hcoprime⟩ := ih hrest
      refine ⟨List.forall_mem_cons.mpr ⟨hfirst, hsquarefree⟩,
        List.pairwise_cons.mpr ⟨fun G hG => ?_, hcoprime⟩⟩
      exact hprime.isCoprime.of_isCoprime_of_dvd_right
        (List.dvd_prod (List.mem_map.mpr ⟨G, hG, rfl⟩))

/-! ## The decomposition -/

variable [LinearOrder α] [IsStrictOrderedRing α]

/-- The decomposition begins with a splitting. -/
theorem splits_of_tests {p : Dense α} (hp : Reduced p) (hdegree : 1 ≤ Dense.degree p)
    (htests : ∀ t ∈ Dense.gcdTests (Dense.makeMonic p) (Dense.derivative (Dense.makeMonic p)),
      t.DropsZeros) :
    Reduced (commonDivisor p) ∧ Reduced (simplePart p) ∧
      Splits (toPolynomial (Dense.makeMonic p)) (toPolynomial (commonDivisor p))
        (toPolynomial (simplePart p)) (toPolynomial (slopePart p)) := by
  have hmonic := Dense.reduced_makeMonic hp
  have hlength : (Dense.makeMonic p).length = p.length := Dense.length_makeMonic p
  rw [Dense.degree] at hdegree
  have hne : Dense.makeMonic p ≠ [] := fun hnil => by
    rw [hnil, List.length_nil] at hlength
    omega
  obtain ⟨hg, hgmonic, hgcd⟩ := Dense.gcd_of_tests hmonic hne htests
  have hgne : commonDivisor p ≠ [] := fun hnil => by
    rw [commonDivisor] at hnil
    rw [hnil] at hgmonic
    exact hgmonic.ne_zero rfl
  refine ⟨hg, Dense.reduced_quotient hmonic hg hgne hgcd.dvd_left, ?_, ?_, hgmonic,
    Dense.quotient_mul hg hgne hgcd.dvd_left, ?_, ?_⟩
  · exact hp.monic_makeMonic fun hnil => by simp [hnil] at hdegree
  · rw [hmonic.natDegree_eq, Dense.degree, hlength]
    exact hdegree
  · rw [← Dense.toPolynomial_derivative]
    exact Dense.quotient_mul hg hgne hgcd.dvd_right
  · rwa [Dense.toPolynomial_derivative] at hgcd

/-- The decomposition finds the factors of the monic polynomial, and its
loop, where it is entered, ends by a break. -/
theorem decompose_of_tests {p : Dense α} (hp : Reduced p) (hdegree : 1 ≤ Dense.degree p)
    (htests : ∀ t ∈ decomposeTests p, t.DropsZeros) :
    Factors (toPolynomial (Dense.makeMonic p)) (toPolynomial (simplePart p)) 1 (decompose p) ∧
      (Dense.degree (commonDivisor p) ≠ 0 →
        EndsByBreak (passCount p) (simplePart p) (slopePart p)) := by
  have hreduced : Reduced (Dense.makeMonic p) := Dense.reduced_makeMonic hp
  rw [decomposeTests, List.forall_mem_append] at htests
  obtain ⟨hgcdTests, hpassTests⟩ := htests
  obtain ⟨hg, ha, hsplits⟩ := splits_of_tests hp hdegree hgcdTests
  rw [decompose_eq]
  split_ifs with hconstant
  · -- The common divisor is one, and the polynomial is its own simple part.
    have hone : toPolynomial (commonDivisor p) = 1 :=
      hsplits.rest_monic.natDegree_eq_zero.mp (hg.natDegree_eq.trans hconstant)
    have hpositive := hsplits.nonconstant
    have hsimple := hsplits.simple
    rw [hone, mul_one] at hsimple
    rw [hreduced.natDegree_eq] at hpositive
    rw [hsimple]
    exact ⟨.single hreduced hsplits.monic hpositive 1, fun h => absurd hconstant h⟩
  · rw [if_neg hconstant] at hpassTests
    have hcount : (toPolynomial (commonDivisor p)).natDegree < passCount p := by
      have hlt := hsplits.natDegree_rest_lt
      rw [hreduced.natDegree_eq] at hlt
      exact hlt.trans (Nat.lt_succ_self _)
    obtain ⟨hends, hfactors⟩ := passes_of_tests 1 ha hsplits hpassTests hcount
    exact ⟨hfactors, fun _ => hends⟩

/-- **Yun's algorithm.**  For every list of coefficients of degree one at
least, its last one not zero, for which no test of the decomposition
discards anything but zeros: the factors are monic, not constant, without
repeated factors and pairwise without common ones; multiplicities ascend;
the polynomial is the product of the factors in these powers times its
leading coefficient, so that degrees add up; and the loop, where it is
entered, ends by a break before its passes are used up. -/
theorem decompose_factors {p : Dense α} (hp : Reduced p) (hdegree : 1 ≤ Dense.degree p)
    (htests : ∀ t ∈ decomposeTests p, t.DropsZeros) :
    (∀ F ∈ decompose p, (toPolynomial F.polynomial).Monic ∧ 1 ≤ Dense.degree F.polynomial ∧
      Squarefree (toPolynomial F.polynomial)) ∧
    ((decompose p).map Factor.multiplicity).Pairwise (· < ·) ∧
    (∀ F ∈ decompose p, 1 ≤ F.multiplicity) ∧
    toPolynomial p = C (toPolynomial p).leadingCoeff *
      ((decompose p).map fun F => toPolynomial F.polynomial ^ F.multiplicity).prod ∧
    (decompose p).Pairwise (fun F G => IsCoprime (toPolynomial F.polynomial)
      (toPolynomial G.polynomial)) ∧
    totalDegree (decompose p) = Dense.degree p ∧
    (Dense.degree (commonDivisor p) ≠ 0 →
      EndsByBreak (Dense.degree p + 1) (simplePart p) (slopePart p)) := by
  have hne : p ≠ [] := by
    rintro rfl
    cases hdegree
  have hlength : Dense.degree (Dense.makeMonic p) = Dense.degree p := by
    rw [Dense.degree, Dense.length_makeMonic, Dense.degree]
  have hgcdTests := (List.forall_mem_append.mp htests).1
  obtain ⟨-, -, hsplits⟩ := splits_of_tests hp hdegree hgcdTests
  obtain ⟨hfactors, hends⟩ := decompose_of_tests hp hdegree htests
  obtain ⟨hsquarefree, hcoprime⟩ := pairwise_isCoprime (hfactors.simple ▸ hsplits.squarefree)
  have hproduct := hfactors.product
  simp only [Nat.add_sub_cancel] at hproduct
  refine ⟨fun F hF => ⟨hfactors.monic F hF, hfactors.nonconstant F hF, hsquarefree F hF⟩,
    hfactors.ascending, hfactors.above, ?_, hcoprime, ?_, ?_⟩
  · have hlead : (toPolynomial p).leadingCoeff ≠ 0 :=
      leadingCoeff_ne_zero.mpr (mt hp.toPolynomial_eq_zero_iff.mp hne)
    rw [hproduct, hp.toPolynomial_makeMonic, ← mul_assoc, ← C_mul, mul_inv_cancel₀ hlead, C_1,
      one_mul]
  · rw [totalDegree_eq hfactors.reduced hfactors.monic, hproduct,
      (Dense.reduced_makeMonic hp).natDegree_eq, hlength]
  · rwa [passCount, hlength] at hends

/-- In the decomposition of `-2 (x - 1)² (x + 2)` all that is discarded are
zeros: each step of it is worked out. -/
theorem cubic_dropsZeros : ∀ t ∈ decomposeTests ([-4, 6, 0, -2] : Dense ℚ), t.DropsZeros := by
  have hcount : passCount ([-4, 6, 0, -2] : Dense ℚ) = 2 + 1 + 1 := rfl
  have hsimple : simplePart ([-4, 6, 0, -2] : Dense ℚ) = [-2, 1, 1] := by decide +kernel
  have hslope : slopePart ([-4, 6, 0, -2] : Dense ℚ) = [3, 3] := by decide +kernel
  -- Differences recurse on both lists at once, which the kernel does not unfold.
  have hfirst : difference ([-2, 1, 1] : Dense ℚ) [3, 3] = [2, 1] := by
    norm_num [difference, Dense.sub, Dense.derivative, Dense.derivativeFrom]
  have hsecond : difference ([-1, 1] : Dense ℚ) [1] = [0] := by
    norm_num [difference, Dense.sub, Dense.derivative, Dense.derivativeFrom]
  have hpass : pass ([-2, 1, 1] : Dense ℚ) [3, 3] = .divides [2, 1] [-1, 1] [1] := by
    rw [pass, trimmedDifference, hfirst]
    decide +kernel
  have hlast : pass ([-1, 1] : Dense ℚ) [1] = .vanishes := by
    rw [pass, trimmedDifference, hsecond]
    decide +kernel
  rw [decomposeTests, hsimple, hslope, hcount, passesTests, hpass]
  dsimp only
  rw [passesTests, hlast, passTests, passTests, trimmedDifference, trimmedDifference, hfirst,
    hsecond]
  decide +kernel

/-- The decomposition of `-2 (x - 1)² (x + 2)`. -/
theorem decompose_cubic :
    Reduced ([-4, 6, 0, -2] : Dense ℚ) ∧ 1 ≤ Dense.degree ([-4, 6, 0, -2] : Dense ℚ) ∧
      (∀ t ∈ decomposeTests ([-4, 6, 0, -2] : Dense ℚ), t.DropsZeros) ∧
      toPolynomial ([-4, 6, 0, -2] : Dense ℚ) =
        C (toPolynomial ([-4, 6, 0, -2] : Dense ℚ)).leadingCoeff *
          ((decompose ([-4, 6, 0, -2] : Dense ℚ)).map fun F =>
            toPolynomial F.polynomial ^ F.multiplicity).prod ∧
      totalDegree (decompose ([-4, 6, 0, -2] : Dense ℚ)) = 3 ∧
      EndsByBreak 4 (simplePart ([-4, 6, 0, -2] : Dense ℚ)) (slopePart [-4, 6, 0, -2]) := by
  have hreduced : Reduced ([-4, 6, 0, -2] : Dense ℚ) := by simp [Reduced]
  have hdegree : 1 ≤ Dense.degree ([-4, 6, 0, -2] : Dense ℚ) := by decide
  obtain ⟨-, -, -, hproduct, -, htotal, hends⟩ :=
    decompose_factors hreduced hdegree cubic_dropsZeros
  exact ⟨hreduced, hdegree, cubic_dropsZeros, hproduct, htotal, hends (by decide +kernel)⟩

end Squarefree

end Univariate
