import Univariate.Proofs.Checked.Division
import Univariate.Proofs.Dense.Leading
import Univariate.Proofs.Squarefree.Decomposition

/-!
# Checked square-free decomposition

The decomposition divides by greatest common divisors only, and each time
by the one of the polynomial that is about to be split.  That polynomial
leads with a coefficient other than zero: so does the one that the loop
starts from, and a pass goes on only with a quotient that is not constant,
hence with one whose divisor was no longer than its dividend.  So none of
the divisors is empty, whatever the tolerances take for zero.

* `Checked.passes`, `Checked.decompose` — the decomposition;
* `Checked.passes_eq` — the loop, from anything that leads;
* `Checked.decompose_eq` — the whole.
-/

namespace Univariate

namespace Checked

open Univariate.Squarefree (Factor difference passTolerance trimmedDifference found)

section Programs

variable {α : Type} [Scalar α]

/-- At most so many passes of the loop. -/
def passes : ℕ → ℕ → Dense α → Dense α → Checked (List (Factor α))
  | 0, _, _, _ => return []
  | more + 1, multiplicity, a, b => do
    if Dense.isNegligible (difference a b) (passTolerance a b) then
      return found a multiplicity
    let c := trimmedDifference a b
    let d ← gcd a c
    let next ← quotient a d
    if Dense.degree next = 0 then return found d multiplicity
    let rest ← quotient c d
    return found d multiplicity ++ (← passes more (multiplicity + 1) next rest)

/-- The factors of a polynomial of degree at least one. -/
def decompose (coefficients : Dense α) : Checked (List (Factor α)) := do
  let p := Dense.makeMonic coefficients
  let slope := Dense.derivative p
  let g ← gcd p slope
  if Dense.degree g = 0 then return [⟨p, 1⟩]
  let a ← quotient p g
  let b ← quotient slope g
  passes (Dense.degree p + 1) 1 a b

end Programs

/-- **The loop divides by nothing empty**, as long as it starts from a
polynomial that leads. -/
theorem passes_eq (more multiplicity : ℕ) {a : Dense Float} (ha : a.Leads) (b : Dense Float) :
    passes more multiplicity a b = .ok (Squarefree.passes more multiplicity a b) := by
  induction more generalizing multiplicity a b with
  | zero => rfl
  | succ more ih =>
      rw [passes, Squarefree.passes_succ]
      by_cases hvanishes : Dense.isNegligible (difference a b) (passTolerance a b) = true
      · rw [if_pos hvanishes, Squarefree.pass_of_negligible hvanishes]
        rfl
      · rw [if_neg hvanishes, Squarefree.pass_of_kept hvanishes]
        dsimp only
        have hd := ha.gcd_ne_nil (trimmedDifference a b)
        have hmonic := Dense.endsMonic_gcd a (trimmedDifference a b)
        rw [gcd_eq, ok_bind]
        generalize Dense.gcd a (trimmedDifference a b) = d at hd hmonic ⊢
        rw [quotient_eq a hd, ok_bind]
        by_cases hconstant : Dense.degree (Dense.quotient a d) = 0
        · rw [if_pos hconstant, if_pos hconstant]
          rfl
        · have hlength : d.length ≤ a.length := by
            by_contra hlong
            rw [Dense.quotient_of_length_lt (not_le.mp hlong)] at hconstant
            exact hconstant rfl
          rw [if_neg hconstant, if_neg hconstant, quotient_eq _ hd, ok_bind,
            ih _ (ha.quotient hd hmonic hlength)]
          rfl

/-- **The decomposition divides by nothing empty.** -/
theorem decompose_eq {coefficients : Dense Float} (h : coefficients.Leads) :
    decompose coefficients = .ok (Squarefree.decompose coefficients) := by
  have hp := h.makeMonic
  rw [decompose, Squarefree.decompose]
  generalize Dense.makeMonic coefficients = p at hp ⊢
  have hslope : (Dense.derivative p).length ≤ p.length := by
    rw [Dense.length_derivative]
    exact Nat.sub_le _ _
  have hg := hp.gcd_ne_nil (Dense.derivative p)
  have hmonic := Dense.endsMonic_gcd p (Dense.derivative p)
  have hlength := Dense.length_gcd_le_left hslope
  rw [gcd_eq, ok_bind]
  generalize Dense.gcd p (Dense.derivative p) = g at hg hmonic hlength ⊢
  by_cases hconstant : Dense.degree g = 0
  · simp only [if_pos hconstant]
    rfl
  · simp only [if_neg hconstant]
    rw [quotient_eq p hg, ok_bind, quotient_eq _ hg, ok_bind]
    exact passes_eq _ _ (hp.quotient hg hmonic hlength) _

end Checked

end Univariate
