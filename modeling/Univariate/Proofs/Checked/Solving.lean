import Univariate.Proofs.Checked.Clustering
import Univariate.Proofs.Failures
import Univariate.Proofs.NormalForm.Coefficients

/-!
# Checked solving

Solving a polynomial in normal form makes no access that fails: with every
access checked it comes out as it does without.  Degrees that decrease put
every coefficient into the list that is laid out for them, and a leading
coefficient other than zero is all that the rest asks for.

* `Checked.coefficients`, `Checked.cauchyBound`, `Checked.solve` — the
  programs;
* `Checked.placeTerms_eq` — all coefficients, term by term;
* `Checked.solve_eq`, `Checked.solve_safe` — what comes out of them.
-/

namespace Univariate

namespace Checked

open NormalForm (fillGaps)

section Programs

variable {α : Type}

/-- Writes each term to the place of its degree. -/
def placeTerms [Scalar α] (terms : List (ℕ × α)) (dense : Dense α) : Checked (Dense α) :=
  terms.foldlM (fun dense t => put dense t.1 t.2) dense

/-- All coefficients, lowest degree first. -/
def coefficients [Scalar α] (p : NormalForm α) : Checked (Dense α) :=
  match p.degree? with
  | none => return []
  | some degree => placeTerms p.terms (List.replicate (degree + 1) Scalar.zero)

/-- One more than the largest magnitude of a coefficient relative to the
leading one. -/
def cauchyBound [Scalar α] (coefficients : Dense α) : Checked α := do
  let n ← minus coefficients.length 1
  let lead ← get coefficients n
  let lower ← upTo coefficients n
  return Scalar.one + lower.foldl (fun largest c =>
    Scalar.max largest (Scalar.abs c / Scalar.abs lead)) Scalar.zero

/-- Solves a polynomial of positive degree. -/
def solvePositive [Analytic α] (p : NormalForm α) (degree : ℕ) (settings : SolverSettings α) :
    Checked (Solution α) := do
  let coefficients ← coefficients p
  let bound ← cauchyBound coefficients
  let ε := settings.rootTolerance * Scalar.max bound Scalar.one
  let found ← candidates coefficients degree ε settings.maxIterations
  let distinct ← cluster ε found
  return .roots distinct ⟨p.leading, distinct⟩

/-- Solves a polynomial. -/
def solve [Analytic α] (p : NormalForm α) (settings : SolverSettings α) :
    Checked (Solution α) :=
  match p.degree? with
  | none => return .identicallyZero
  | some 0 => return .constant p.leading
  | some degree => solvePositive p degree settings

variable [Scalar α]

/-- Gaps below the first degree are filled with zeros. -/
theorem fillGaps_eq_append {k n : ℕ} (hk : k ≤ n) {t : ℕ × α} (ht : n ≤ t.1)
    (above : List (ℕ × α)) :
    fillGaps k (t :: above) =
      List.replicate (n - k) Scalar.zero ++ fillGaps n (t :: above) := by
  have hgap : t.1 - k = (n - k) + (t.1 - n) := by omega
  rw [fillGaps, fillGaps, hgap, ← List.replicate_append_replicate, List.append_assoc]

/-- **Terms of decreasing degrees** fill the places below those that are
filled already. -/
theorem placeTerms_eq {terms : List (ℕ × α)} (hterms : terms.Pairwise fun s t => t.1 < s.1)
    {n : ℕ} (hn : ∀ s ∈ terms, s.1 < n) {t : ℕ × α} (ht : n ≤ t.1) (above : List (ℕ × α)) :
    placeTerms terms (List.replicate n Scalar.zero ++ fillGaps n (t :: above)) =
      .ok (fillGaps 0 (terms.reverse ++ t :: above)) := by
  induction terms generalizing n t above with
  | nil =>
      rw [List.reverse_nil, List.nil_append, fillGaps_eq_append n.zero_le ht]
      rfl
  | cons s terms ih =>
      rw [List.forall_mem_cons] at hn
      obtain ⟨hs, -⟩ := hn
      rw [List.pairwise_cons] at hterms
      have hgap : List.replicate n Scalar.zero = List.replicate s.1 (Scalar.zero : α) ++
          Scalar.zero :: List.replicate (n - (s.1 + 1)) Scalar.zero := by
        rw [← List.replicate_succ, List.replicate_append_replicate]
        congr 1
        omega
      have hfilled : fillGaps s.1 (s :: t :: above) =
          s.2 :: (List.replicate (n - (s.1 + 1)) Scalar.zero ++ fillGaps n (t :: above)) := by
        rw [← fillGaps_eq_append hs ht, fillGaps, Nat.sub_self]
        rfl
      have hput : put (List.replicate n Scalar.zero ++ fillGaps n (t :: above)) s.1 s.2 =
          .ok (List.replicate s.1 Scalar.zero ++ fillGaps s.1 (s :: t :: above)) := by
        rw [hgap, List.append_assoc, List.cons_append, put_append List.length_replicate, hfilled]
      have hnext := ih hterms.2 hterms.1 (t := s) le_rfl (t :: above)
      rw [placeTerms] at hnext ⊢
      rw [List.foldlM_cons, hput, ok_bind, hnext, List.reverse_cons, List.append_assoc]
      rfl

/-- **The coefficients of a canonical form** are written without leaving the
list. -/
theorem coefficients_eq {p : NormalForm α} (hp : p.Canonical) :
    coefficients p = .ok p.coefficients := by
  rw [coefficients, NormalForm.degree?, NormalForm.coefficients]
  obtain ⟨hdescending, -⟩ := hp
  cases hterms : p.terms with
  | nil => rfl
  | cons t terms =>
      rw [hterms, List.pairwise_cons] at hdescending
      have hfirst : put (List.replicate (t.1 + 1) Scalar.zero) t.1 t.2 =
          .ok (List.replicate t.1 Scalar.zero ++ fillGaps t.1 [t]) := by
        rw [List.replicate_succ', put_append List.length_replicate, fillGaps, Nat.sub_self]
        rfl
      have hrest := placeTerms_eq hdescending.2 hdescending.1 (t := t) le_rfl []
      rw [placeTerms] at hrest
      dsimp only [List.head?_cons, Option.map_some]
      rw [placeTerms, List.foldlM_cons, hfirst, ok_bind, hrest, List.reverse_cons]

/-- **The checked bound succeeds**, for every list that has a last
coefficient. -/
theorem cauchyBound_eq {coefficients : Dense α} (h : coefficients ≠ []) :
    cauchyBound coefficients = .ok (Solution.cauchyBound coefficients) := by
  obtain ⟨lower, lead, rfl⟩ := (List.eq_nil_or_concat' coefficients).resolve_left h
  have hupTo : upTo (lower ++ [lead]) lower.length = .ok lower := by
    rw [upTo_of_le (by simp), List.take_left]
  rw [cauchyBound, minus_length_concat, ok_bind, get_append rfl, ok_bind, hupTo, ok_bind,
    Solution.cauchyBound, List.reverse_concat]
  dsimp only
  rw [List.reverse_reverse]
  rfl

end Programs

/-- The coefficients of a normal form that is not zero lead. -/
theorem leads_coefficients {p : NormalForm Float} (hp : p.Canonical) (h : p.terms ≠ []) :
    Dense.Leads p.coefficients ∧ p.degree? = some (Dense.degree p.coefficients) := by
  obtain ⟨⟨d, c⟩, rest, hterms⟩ := List.exists_cons_of_ne_nil h
  obtain ⟨lower, hcoefficients, rfl⟩ := NormalForm.exists_coefficients hp hterms
  have hc : ¬Binary64.Exactly c 0 := by
    have hlast := hp.2 (lower.length, c) (hterms ▸ List.mem_cons_self)
    rw [← Binary64.eq_zero_iff, hlast]
    exact Bool.false_ne_true
  rw [hcoefficients, NormalForm.degree?, hterms]
  refine ⟨⟨c, by simp, hc⟩, ?_⟩
  rw [Dense.degree_concat]
  rfl

/-- **Solving with checked accesses** is solving. -/
theorem solve_eq {p : NormalForm Float} (hp : p.Canonical) (settings : SolverSettings Float) :
    solve p settings = refuse (Solution.ofNormalForm p settings) := by
  by_cases hterms : p.terms = []
  · have hdegree : p.degree? = none := by rw [NormalForm.degree?, hterms]; rfl
    rw [solve, Solution.ofNormalForm, hdegree]
    rfl
  · obtain ⟨hleads, hdegree⟩ := leads_coefficients hp hterms
    cases hn : Dense.degree p.coefficients with
    | zero =>
        rw [solve, Solution.ofNormalForm, hdegree, hn]
        rfl
    | succ n =>
        have hsolve : solve p settings =
            solvePositive p (Dense.degree p.coefficients) settings := by
          rw [solve, hdegree, hn]
          rfl
        have hmodel : Solution.ofNormalForm p settings = (do
            let ε := Solution.mergeDistance settings p.coefficients
            let found ← Multiplicity.candidates p.coefficients ε settings.maxIterations
            return .roots (Cluster.cluster ε found) ⟨p.leading, Cluster.cluster ε found⟩) := by
          rw [Solution.ofNormalForm, hdegree, hn]
          rfl
        rw [hsolve, hmodel, solvePositive, coefficients_eq hp, ok_bind,
          cauchyBound_eq hleads.ne_nil, ok_bind, ← Solution.mergeDistance]
        dsimp only
        rw [candidates_eq hleads, refuse_bind]
        simp only [cluster_eq]
        rfl

/-- **The solver makes no access that fails.**  For every polynomial whose
degrees strictly decrease and whose coefficients are not zero, and under
every setting, solving with checked accesses is solving: it ends with a
solution, or refuses the polynomial as numerically unsolvable.  A division
by an empty polynomial would be a fault.  Common divisors are found without
one, whatever they are asked of, and are not empty if the first argument
ends with a coefficient other than zero; the decomposition divides by no
others; and `m + 1` coefficients around a point have one of degree `m`. -/
theorem solve_safe (p : NormalForm Float) (hp : p.Canonical) (settings : SolverSettings Float) :
    solve p settings = refuse (Solution.ofNormalForm p settings) ∧
      ((∃ solution, solve p settings = .ok solution) ∨
        ∃ fault, solve p settings = .error (.refused (.unsolvable fault))) ∧
      (∀ a : Dense Float, divRem a [] = .error (.fault (.outOfBounds 0 0))) ∧
      (∀ a b : Dense Float, gcd a b = .ok (Dense.gcd a b)) ∧
      (∀ (a b : Dense Float) (c : Float), a.getLast? = some c →
        Scalar.eq c Scalar.zero = false → Dense.gcd a b ≠ []) ∧
      (p.terms ≠ [] → decompose p.coefficients = .ok (Squarefree.decompose p.coefficients)) ∧
      ∀ (r : Cplx Float) (m : ℕ) (work : List (Cplx Float)),
        ∃ shifted, taylor r (m + 1) work = .ok shifted ∧ ∃ t, get shifted m = .ok t := by
  have hsolve := solve_eq hp settings
  refine ⟨hsolve, ?_, divRem_nil, gcd_eq, fun a b c hc hzero => ?_, fun hterms => ?_,
    fun r m work => ⟨_, taylor_eq r (m + 1) work, ?_⟩⟩
  · have hyields := Solution.yields_of_ofNormalForm p settings
    rw [hsolve]
    generalize Solution.ofNormalForm p settings = solved at hyields
    cases hyields with
    | ok _ => exact Or.inl ⟨_, rfl⟩
    | unsolvable fault => exact Or.inr ⟨fault, rfl⟩
  · refine Dense.Leads.gcd_ne_nil ⟨c, hc, ?_⟩ b
    rw [← Binary64.eq_zero_iff, hzero]
    exact Bool.false_ne_true
  · exact decompose_eq (leads_coefficients hp hterms).1
  · have hm : m < (Multiplicity.taylor r (m + 1) work).length := by
      rw [Multiplicity.length_taylor]
      exact Nat.lt_succ_self m
    exact ⟨_, get_of_lt hm⟩

/-- The square of `x - 1`, whose derivative divides it. -/
theorem solve_safe_square :
    let p : NormalForm Float := ⟨[(2, 1), (1, -2), (0, 1)]⟩
    let settings : SolverSettings Float := ⟨1e-9, 200⟩
    p.Canonical ∧ solve p settings = refuse (Solution.ofNormalForm p settings) ∧
      decompose p.coefficients = .ok (Squarefree.decompose p.coefficients) := by
  have hone : Scalar.eq (1 : Float) Scalar.zero = false := rfl
  have hminus : Scalar.eq (-2 : Float) Scalar.zero = false := rfl
  have hp : (⟨[(2, 1), (1, -2), (0, 1)]⟩ : NormalForm Float).Canonical :=
    ⟨by simp, by simp [hone, hminus]⟩
  obtain ⟨hsolve, -, -, -, -, hdecompose, -⟩ := solve_safe _ hp ⟨1e-9, 200⟩
  exact ⟨hp, hsolve, hdecompose (by simp)⟩

end Checked

end Univariate
