import Univariate.Proofs.NormalForm.Coefficients
import Univariate.Proofs.Roots.Candidates
import Univariate.Scalar.Float

/-!
# The shape of a solution

Solving tells three cases apart: the zero polynomial, a constant, and
everything else, which has as many roots as its degree.  The first two are
read off the terms.  In the third the roots come from an iteration in
rounded arithmetic, of which only two things are used here: it may fail,
and otherwise it answers with as many points as it was given.

* `Solution.yields_ofNormalForm` — what is solved in the third case;
* `Solution.ofNormalForm_shape` — the three cases together.
-/

namespace Univariate

namespace Solution

variable {α : Type} [Analytic α]

/-- The roots of a solution count the degree, ascend, and are the factors
of the factorization, behind the leading coefficient. -/
structure HasShape (p : NormalForm α) (degree : ℕ) (roots : List (Root α))
    (factorization : Factorization α) : Prop where
  /-- Multiplicities are at least one and add up to the degree. -/
  counts : Counts degree roots
  /-- Real parts ascend, imaginary parts between equal ones. -/
  ascending : roots.Pairwise (Cluster.rootLE · · = true)
  factors : factorization.factors = roots
  leading : factorization.leading = p.leading

/-- A solution of degree one at least. -/
def IsRoots (p : NormalForm α) (degree : ℕ) (s : Solution α) : Prop :=
  ∃ rs factorization, s = roots rs factorization ∧ HasShape p degree rs factorization

/-- A polynomial of positive degree. -/
theorem yields_ofNormalForm [SortsTotally α] {p : NormalForm α} (hp : p.Canonical) {d : ℕ} {c : α}
    {rest : List (ℕ × α)} (hterms : p.terms = (d + 1, c) :: rest) (settings : SolverSettings α) :
    Yields (IsRoots p (d + 1)) (ofNormalForm p settings) := by
  have hlead : Scalar.eq c Scalar.zero = false := hp.2 (d + 1, c) (by rw [hterms]; simp)
  have hdegree : p.degree? = some (d + 1) := by rw [NormalForm.degree?, hterms]; rfl
  obtain ⟨lower, hcoefficients, hlength⟩ := NormalForm.exists_coefficients hp hterms
  rw [ofNormalForm, hdegree]
  dsimp only
  rw [hcoefficients]
  refine (Multiplicity.yields_candidates lower hlead _ _).bind fun found hfound => .ok ?_
  rw [hlength] at hfound
  exact ⟨_, _, rfl, Cluster.counts_cluster _ hfound, Cluster.pairwise_sortRoots _, rfl, rfl⟩

/-- **The shape of every solution.**  The zero polynomial and the constants
are told apart from everything else by their terms.  Any other polynomial
either is reported as unsolvable or has roots that count its degree, in
ascending order, and those are the factors behind its leading coefficient.
No law of arithmetic is used. -/
theorem ofNormalForm_shape [SortsTotally α] {p : NormalForm α} (hp : p.Canonical)
    (settings : SolverSettings α) :
    (ofNormalForm p settings = .ok identicallyZero ↔ p.terms = []) ∧
      (∀ c, ofNormalForm p settings = .ok (constant c) ↔ p.terms = [(0, c)]) ∧
      (p.terms ≠ [] → (∀ c, p.terms ≠ [(0, c)]) →
        (∃ fault, ofNormalForm p settings = .error (.unsolvable fault)) ∨
          ∃ d rs factorization, p.degree? = some d ∧
            ofNormalForm p settings = .ok (roots rs factorization) ∧
            HasShape p d rs factorization) := by
  rcases hterms : p.terms with _ | ⟨⟨d, c⟩, rest⟩
  · have hsolved : ofNormalForm p settings = .ok identicallyZero := by
      rw [ofNormalForm, NormalForm.degree?, hterms]
      rfl
    simp [hsolved]
  cases d with
  | zero =>
      -- Below degree zero there is no further term.
      have hrest : rest = [] := by
        have hbelow := hp.1
        rw [hterms, List.pairwise_cons] at hbelow
        exact List.eq_nil_iff_forall_not_mem.mpr fun t ht => Nat.not_lt_zero _ (hbelow.1 t ht)
      have hsolved : ofNormalForm p settings = .ok (constant c) := by
        rw [ofNormalForm, NormalForm.degree?, NormalForm.leading, hterms]
        rfl
      subst hrest
      simp [hsolved, eq_comm]
  | succ d =>
      have hdegree : p.degree? = some (d + 1) := by rw [NormalForm.degree?, hterms]; rfl
      have hyields := yields_ofNormalForm hp hterms settings
      generalize hs : ofNormalForm p settings = solved at hyields
      cases hyields with
      | unsolvable fault => simp
      | ok hroots =>
          obtain ⟨rs, factorization, rfl, hshape⟩ := hroots
          refine ⟨by simp, by simp, fun _ _ => Or.inr ?_⟩
          exact ⟨d + 1, rs, factorization, hdegree, rfl, hshape⟩

/-- `x² - 1` under a tolerance that no validation would let through. -/
theorem ofNormalForm_shape_difference_of_squares :
    let p : NormalForm Float := ⟨[(2, 1), (0, -1)]⟩
    p.Canonical ∧
      ((∃ fault, ofNormalForm p ⟨-1, 0⟩ = .error (.unsolvable fault)) ∨
        ∃ d rs factorization, p.degree? = some d ∧
          ofNormalForm p ⟨-1, 0⟩ = .ok (roots rs factorization) ∧
          HasShape p d rs factorization) := by
  have hone : Scalar.eq (1 : Float) Scalar.zero = false := rfl
  have hminus : Scalar.eq (-1 : Float) Scalar.zero = false := rfl
  have hp : (⟨[(2, 1), (0, -1)]⟩ : NormalForm Float).Canonical :=
    ⟨by simp, by simp [hone, hminus]⟩
  exact ⟨hp, (ofNormalForm_shape hp ⟨-1, 0⟩).2.2 (by simp) (by simp)⟩

end Solution

end Univariate
