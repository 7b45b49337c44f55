import Univariate.Proofs.Dense.Gcd

/-!
# Runs of Euclid's loop

A pass of the loop takes a dividend and a divisor to that divisor and the
remainder, until the divisor is empty.  Whatever the arithmetic is, the
remainder is shorter than the divisor, because long division leaves no more
entries than that and nothing later adds one.  So from any two lists there
is one run, and it has no more passes than the divisor has entries.  Where
no pass discards anything but zeros, the operands of each have the common
divisors of the first two, and the last dividend is a greatest one.

* `Dense.Runs` — a run, pass by pass;
* `Dense.Runs.shortens`, `Dense.Runs.length_le` — every pass shortens the
  divisor, which bounds their number;
* `Dense.exists_runs`, `Dense.Runs.unique` — there is one run, which ends
  with what the loop answers;
* `Dense.euclid_ends_isGcd` — the loop as a whole.
-/

namespace Univariate

namespace Dense

open Polynomial
open scoped Exact

/-! ## Runs -/

section Runs

variable {α : Type} [Scalar α] {p q last last' : Dense α}
  {passes passes' : List (Dense α × Dense α)}

/-- A run from a dividend and a divisor: the two operands of every pass, and
the dividend that is left when the divisor is empty. -/
inductive Runs : Dense α → Dense α → List (Dense α × Dense α) → Dense α → Prop
  | stop (p : Dense α) : Runs p [] [] p
  | pass {p q last : Dense α} {passes : List (Dense α × Dense α)} (hq : q ≠ [])
      (rest : Runs q (remainder p q) passes last) : Runs p q ((p, q) :: passes) last

/-- The test of a pass. -/
def passTest (operands : Dense α × Dense α) : Test α :=
  ⟨(divRem operands.1 operands.2).2,
    Scalar.gcdTolerance * Scalar.max (norm operands.1) Scalar.one⟩

/-- **There is a run** from any two lists, and it ends with the answer of the
loop. -/
theorem exists_runs (p q : Dense α) : ∃ passes, Runs p q passes (gcdLoop p q) := by
  fun_induction gcdLoop p q with
  | case1 p => exact ⟨[], .stop p⟩
  | case2 p b q ih =>
      obtain ⟨passes, hrest⟩ := ih
      exact ⟨(p, b :: q) :: passes, .pass (List.cons_ne_nil b q) hrest⟩

namespace Runs

/-- There is no other one. -/
theorem unique (h : Runs p q passes last) (h' : Runs p q passes' last') :
    passes' = passes ∧ last' = last := by
  induction h generalizing passes' last' with
  | stop p =>
      cases h' with
      | stop => exact ⟨rfl, rfl⟩
      | pass hq => exact absurd rfl hq
  | pass hq rest ih =>
      cases h' with
      | stop => exact absurd rfl hq
      | pass _ rest' =>
          obtain ⟨rfl, rfl⟩ := ih rest'
          exact ⟨rfl, rfl⟩

/-- **Every pass** leaves a divisor that is shorter than its own. -/
theorem shortens (h : Runs p q passes last) :
    ∀ operands ∈ passes, (remainder operands.1 operands.2).length < operands.2.length := by
  induction h with
  | stop p => exact List.forall_mem_nil _
  | pass hq rest ih => exact List.forall_mem_cons.mpr ⟨length_remainder_lt _ hq, ih⟩

/-- So there are no more passes than the divisor has entries. -/
theorem length_le (h : Runs p q passes last) : passes.length ≤ q.length := by
  induction h with
  | stop p => exact le_rfl
  | @pass p q last passes hq rest ih =>
      calc passes.length + 1 ≤ (remainder p q).length + 1 := Nat.succ_le_succ ih
        _ ≤ q.length := length_remainder_lt p hq

/-- The tests of the loop are those of its passes. -/
theorem tests_eq (h : Runs p q passes last) : gcdLoopTests p q = passes.map passTest := by
  induction h with
  | stop p => rw [gcdLoopTests, List.map_nil]
  | @pass p q last passes hq rest ih =>
      obtain ⟨b, q, rfl⟩ := List.exists_cons_of_ne_nil hq
      rw [gcdLoopTests, ih, List.map_cons]
      rfl

end Runs

end Runs

/-! ## The loop as a whole -/

variable {α : Type} [Field α] [LinearOrder α] [IsStrictOrderedRing α]

/-- **Euclid's loop.**  In any arithmetic, rounded or not, there is exactly
one run from any dividend and any divisor, the one that the loop answers
with; each of its passes shortens the divisor, and there are no more of them
than the divisor has entries.  In exact arithmetic, for any two polynomials
that are not both zero, if no test that is made on the way discards anything
but zeros, the answer does not end with a zero, is monic, and its divisors
are the common divisors of the two. -/
theorem euclid_ends_isGcd :
    (∀ {β : Type} [Scalar β] (p q : Dense β), ∃ passes,
      (∀ passes' last, Runs p q passes' last ↔ passes' = passes ∧ last = gcdLoop p q) ∧
      (∀ operands ∈ passes,
        (remainder operands.1 operands.2).length < operands.2.length) ∧
      passes.length ≤ q.length ∧ gcdLoopTests p q = passes.map passTest) ∧
    ∀ p q : Dense α, ¬(toPolynomial p = 0 ∧ toPolynomial q = 0) →
      (∀ t ∈ gcdTests p q, t.DropsZeros) →
      Reduced (gcd p q) ∧ (toPolynomial (gcd p q)).Monic ∧
        IsGcd (toPolynomial (gcd p q)) (toPolynomial p) (toPolynomial q) := by
  refine ⟨?_, fun p q hne htests => isGcd_of_tests hne htests⟩
  intro β _ p q
  obtain ⟨passes, hrun⟩ := exists_runs p q
  refine ⟨passes, fun passes' last => ⟨fun h => hrun.unique h, ?_⟩, hrun.shortens,
    hrun.length_le, hrun.tests_eq⟩
  rintro ⟨rfl, rfl⟩
  exact hrun

/-- The derivative of `(x - 1)² (x - 2)`, with a zero to spare, and that
polynomial: the first division is by the longer one. -/
theorem euclid_ends_isGcd_derivative :
    ¬(toPolynomial ([5, -8, 3, 0] : Dense ℚ) = 0 ∧
      toPolynomial ([-2, 5, -4, 1] : Dense ℚ) = 0) ∧
    (∀ t ∈ gcdTests ([5, -8, 3, 0] : Dense ℚ) [-2, 5, -4, 1], t.DropsZeros) ∧
    gcd ([5, -8, 3, 0] : Dense ℚ) [-2, 5, -4, 1] = [-1, 1] ∧
    IsGcd (toPolynomial ([-1, 1] : Dense ℚ)) (toPolynomial [5, -8, 3, 0])
      (toPolynomial [-2, 5, -4, 1]) := by
  have hne : ¬(toPolynomial ([5, -8, 3, 0] : Dense ℚ) = 0 ∧
      toPolynomial ([-2, 5, -4, 1] : Dense ℚ) = 0) := fun h =>
    absurd (forall_eq_zero_of_toPolynomial h.1 5 List.mem_cons_self) (by norm_num)
  have htests : ∀ t ∈ gcdTests ([5, -8, 3, 0] : Dense ℚ) [-2, 5, -4, 1], t.DropsZeros := by
    decide +kernel
  have hgcd : gcd ([5, -8, 3, 0] : Dense ℚ) [-2, 5, -4, 1] = [-1, 1] := by decide +kernel
  obtain ⟨-, -, hisGcd⟩ := euclid_ends_isGcd.2 _ _ hne htests
  rw [hgcd] at hisGcd
  exact ⟨hne, htests, hgcd, hisGcd⟩

end Dense

end Univariate
