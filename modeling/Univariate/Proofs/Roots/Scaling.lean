import Univariate.Proofs.Dense.Polynomial
import Univariate.Proofs.Roots.ScaledIteration
import Univariate.Proofs.Roots.Shape
import Univariate.Roots.Solution

/-!
# Roots do not depend on the leading scalar

Over the reals a multiple of a polynomial is solved as the polynomial is.
The decomposition starts by dividing by the leading coefficient; bounds of
the roots are quotients of coefficients; around a repeated root all
coefficients grow with the factor, and so do the rounding errors that they
are compared with.  What is left are the roots of the polynomial itself,
which the iteration finds in the same way.

* `NormalForm.scaled` — a multiple of a polynomial;
* `Squarefree.decompose_scaled` — the factors;
* `Multiplicity.clusterRadius_scaled` — how far roots lie apart;
* `Multiplicity.candidates_scaled` — the candidate roots;
* `Solution.ofNormalForm_scaled` — the solution.
-/

namespace Univariate

open Univariate.Dense (scaled Reduced)
open scoped Exact

/-! ## Factors -/

section Factors

variable {α : Type} [Field α] [LinearOrder α] {k : α}

/-- Made monic, a multiple is the polynomial itself made monic. -/
theorem Dense.makeMonic_scaled (hk : k ≠ 0) {p : Dense α} (hp : Reduced p) :
    Dense.makeMonic (scaled k p) = Dense.makeMonic p := by
  rcases hp.eq_nil_or_concat with rfl | ⟨lower, c, rfl, hc⟩
  · rfl
  · have hconcat : scaled k (lower ++ [c]) = scaled k lower ++ [k * c] := List.map_append
    have hquotient : (· / (k * c)) ∘ (k * ·) = (· / c) :=
      funext fun x => mul_div_mul_left x c hk
    rw [hconcat, Dense.makeMonic_concat (mul_ne_zero hk hc), Dense.makeMonic_concat hc, scaled,
      List.map_map, hquotient]

/-- **The factors** are those of the monic polynomial. -/
theorem Squarefree.decompose_scaled (hk : k ≠ 0) {p : Dense α} (hp : Reduced p) :
    Squarefree.decompose (scaled k p) = Squarefree.decompose p := by
  rw [Squarefree.decompose, Dense.makeMonic_scaled hk hp, Squarefree.decompose]

end Factors

/-! ## Bounds -/

namespace Solution

variable {k : ℝ}

/-- The bound does not depend on the scale. -/
theorem cauchyBound_scaled (hk : k ≠ 0) (p : Dense ℝ) :
    cauchyBound (scaled k p) = cauchyBound p := by
  rw [cauchyBound, Dense.reverse_scaled, cauchyBound]
  cases p.reverse with
  | nil => rfl
  | cons lead lower =>
      dsimp only [Dense.scaled_cons]
      rw [Dense.reverse_scaled, scaled, List.foldl_map]
      simp only [Exact.abs_eq, abs_mul, mul_div_mul_left _ _ (abs_ne_zero.mpr hk)]

/-- **The tolerance does not depend on the scale.** -/
theorem mergeDistance_scaled (hk : k ≠ 0) (settings : SolverSettings ℝ) (p : Dense ℝ) :
    mergeDistance settings (scaled k p) = mergeDistance settings p := by
  rw [mergeDistance, cauchyBound_scaled hk, mergeDistance]

end Solution

/-! ## Clusters -/

namespace Multiplicity

variable {k : ℝ}

section Lengths

variable {α : Type} [Scalar α]

/-- One step of synthetic division. -/
theorem divLinear_cons_cons (r c d : Cplx α) (p : List (Cplx α)) :
    divLinear r (c :: d :: p) =
      ((divLinear r (d :: p)).2 :: (divLinear r (d :: p)).1, (divLinear r (d :: p)).2 * r + c) :=
  rfl

/-- As many coefficients as are asked for. -/
theorem length_taylor (r : Cplx α) (count : ℕ) (p : List (Cplx α)) :
    (taylor r count p).length = count := by
  induction count generalizing p with
  | zero => rfl
  | succ count ih => exact congrArg Nat.succ (ih _)

end Lengths

section Shift

variable {α : Type} [Field α] [LinearOrder α]

/-- Division by `x - r` takes a factor to the quotient and the value. -/
theorem divLinear_scale (k : α) (r : Cplx α) (p : List (Cplx α)) :
    divLinear r (p.map (·.scale k)) =
      ((divLinear r p).1.map (·.scale k), (divLinear r p).2.scale k) := by
  induction p with
  | nil => simp [divLinear, Exact.zero_scale]
  | cons c p ih =>
      cases p with
      | nil => rfl
      | cons d p =>
          rw [List.map_cons] at ih
          rw [List.map_cons, List.map_cons, divLinear_cons_cons, ih, divLinear_cons_cons]
          dsimp only
          rw [Exact.scale_mul, Exact.scale_add, List.map_cons]

/-- **The coefficients around a point** grow with the factor. -/
theorem taylor_scale (k : α) (r : Cplx α) (count : ℕ) (p : List (Cplx α)) :
    taylor r count (p.map (·.scale k)) = (taylor r count p).map (·.scale k) := by
  induction count generalizing p with
  | zero => rfl
  | succ count ih =>
      rw [taylor, divLinear_scale]
      dsimp only
      rw [ih, taylor]
      rfl

end Shift

section Radius

variable {α : Type} [Analytic α]

/-- A distance within which `m` roots lie, from the sizes of the
coefficients around a point and the errors allowed for them. -/
def radiusFrom (m : ℕ) (sizes allowances : List α) : Option α :=
  match sizes.drop m, allowances.drop m with
  | lead :: _, allowance :: _ =>
    if Scalar.le lead allowance then none
    else
      let lower := ((sizes.take m).zip (allowances.take m)).zipIdx
      some <| lower.foldl (fun largest ((size, allowance), k) =>
        let rest := Scalar.max (size - allowance) Scalar.zero
        Scalar.max largest (Scalar.ofNat 2 * Analytic.root (rest / lead) (m - k)))
        Scalar.zero
  | _, _ => none

/-- What a coefficient contributes to the distance. -/
def scalarContribution (s a : ℕ → α) (m k : ℕ) : α :=
  Scalar.ofNat 2 * Analytic.root (Scalar.max (s k - a k) Scalar.zero / s m) (m - k)

theorem zipIdx_map_range {β : Type} (f : ℕ → β) (m : ℕ) :
    ((List.range m).map f).zipIdx = (List.range m).map fun k => (f k, k) := by
  have hzip : ((List.range m).map f).zip ((List.range m).map id) =
      (List.range m).map fun k => (f k, k) := List.zip_map'
  rw [List.map_id] at hzip
  rw [List.zipIdx_eq_zip_range', List.length_map, List.length_range, ← List.range_eq_range', hzip]

/-- The distance in terms of the entries. -/
theorem radiusFrom_map_range (m : ℕ) (s a : ℕ → α) :
    radiusFrom m ((List.range (m + 1)).map s) ((List.range (m + 1)).map a) =
      if Scalar.le (s m) (a m) then none
      else some ((List.range m).foldl (fun largest k =>
        Scalar.max largest (scalarContribution s a m k)) Scalar.zero) := by
  have hdrop (f : ℕ → α) : ((List.range (m + 1)).map f).drop m = [f m] := by
    simp [List.range_succ]
  have htake (f : ℕ → α) : ((List.range (m + 1)).map f).take m = (List.range m).map f := by
    simp [List.range_succ]
  rw [radiusFrom, hdrop, hdrop, htake, htake, List.zip_map', zipIdx_map_range]
  dsimp only
  rw [List.foldl_map]
  rfl

/-- The share of a coefficient that rounding may take. -/
def roundingShare (p : Dense α) : α :=
  Scalar.ofNat taylorUlps * Scalar.ofNat p.length * Scalar.epsilon

/-- The radius from the sizes around the point and the errors allowed for
them. -/
theorem clusterRadius_eq (p : Dense α) (r : Cplx α) (m : ℕ) :
    clusterRadius p r m = radiusFrom m ((taylor r (m + 1) (p.map Cplx.ofReal)).map Cplx.norm)
      ((taylor (Cplx.ofReal r.norm) (m + 1)
        (p.map fun c => Cplx.ofReal (Scalar.abs c))).map fun b => roundingShare p * b.re) := rfl

end Radius

/-- Sizes and errors that grow alike leave the distance as it is. -/
theorem radiusFrom_map_mul {s : ℝ} (hs : 0 < s) (m : ℕ) (sizes allowances : List ℝ) :
    radiusFrom m (sizes.map (s * ·)) (allowances.map (s * ·)) = radiusFrom m sizes allowances := by
  have hle (x y : ℝ) : Scalar.le (s * x) (s * y) = Scalar.le x y := by
    rw [Exact.le_eq, Exact.le_eq, decide_eq_decide, mul_le_mul_iff_right₀ hs]
  have hrest (size allowance lead : ℝ) :
      Scalar.max (s * size - s * allowance) Scalar.zero / (s * lead) =
        Scalar.max (size - allowance) Scalar.zero / lead := by
    rw [Exact.max_eq, Exact.max_eq, Exact.zero_eq, ← mul_sub, ← mul_div_mul_left _ lead hs.ne',
      mul_max_of_nonneg _ _ hs.le, mul_zero]
  rw [radiusFrom, ← List.map_drop, ← List.map_drop, radiusFrom]
  cases sizes.drop m with
  | nil => rfl
  | cons lead _ =>
      cases allowances.drop m with
      | nil => rfl
      | cons allowance _ =>
          rw [List.map_cons, List.map_cons]
          dsimp only
          rw [hle, ← List.map_take, ← List.map_take, List.zip_map, List.zipIdx_map,
            List.foldl_map]
          simp only [Prod.map_fst, Prod.map_snd, id_eq, hrest]

/-- **How far roots lie apart** does not depend on the factor. -/
theorem clusterRadius_scaled (hk : k ≠ 0) (p : Dense ℝ) :
    clusterRadius (scaled k p) = clusterRadius p := by
  funext r m
  have hshifted : (scaled k p).map Cplx.ofReal = (p.map Cplx.ofReal).map (·.scale k) := by
    rw [scaled, List.map_map, List.map_map]
    exact List.map_congr_left fun c _ => Exact.ofReal_mul k c
  have hbounds : ((scaled k p).map fun c => Cplx.ofReal (Scalar.abs c)) =
      (p.map fun c => Cplx.ofReal (Scalar.abs c)).map (·.scale |k|) := by
    rw [scaled, List.map_map, List.map_map]
    refine List.map_congr_left fun c _ => ?_
    rw [Function.comp_apply, Function.comp_apply, Exact.abs_eq, Exact.abs_eq, abs_mul,
      Exact.ofReal_mul]
  have hshare : roundingShare (scaled k p) = roundingShare p := by
    rw [roundingShare, Dense.length_scaled, roundingShare]
  have hsizes (cs : List (Cplx ℝ)) :
      (cs.map (·.scale k)).map Cplx.norm = (cs.map Cplx.norm).map (|k| * ·) := by
    rw [List.map_map, List.map_map]
    exact List.map_congr_left fun z _ => Exact.norm_scale z k
  have hallowances (cs : List (Cplx ℝ)) :
      ((cs.map (·.scale |k|)).map fun b => roundingShare p * b.re) =
        (cs.map fun b => roundingShare p * b.re).map (|k| * ·) := by
    rw [List.map_map, List.map_map]
    refine List.map_congr_left fun b _ => ?_
    show roundingShare p * (b.re * |k|) = |k| * (roundingShare p * b.re)
    ring
  rw [clusterRadius_eq, hshifted, hbounds, hshare, taylor_scale, taylor_scale, hsizes,
    hallowances, radiusFrom_map_mul (abs_pos.mpr hk), clusterRadius_eq]

/-! ## Candidates -/

/-- **A root is confirmed at any scale or at none.** -/
theorem isUnconfirmed_scaled (hk : k ≠ 0) (p : Dense ℝ) (ε : ℝ) :
    isUnconfirmed (scaled k p) ε = isUnconfirmed p ε := by
  funext r
  rw [isUnconfirmed, clusterRadius_scaled hk, isUnconfirmed]

/-- **The candidates are the same at any scale.** -/
theorem byFactors_scaled (hk : k ≠ 0) {p : Dense ℝ} (hp : Reduced p) (ε : ℝ) (iterations : ℕ) :
    byFactors (scaled k p) ε iterations = byFactors p ε iterations := by
  rw [byFactors, Squarefree.decompose_scaled hk hp, Dense.degree_scaled, isUnconfirmed_scaled hk,
    Roots.find_scaled hk, byFactors]

/-- **The candidate roots** are the same, or are missing for the same
reason. -/
theorem candidates_scaled (hk : k ≠ 0) {p : Dense ℝ} (hp : Reduced p) (ε : ℝ) (iterations : ℕ) :
    candidates (scaled k p) ε iterations = candidates p ε iterations := by
  rw [candidates, byFactors_scaled hk hp, Dense.degree_scaled, Roots.find_scaled hk, candidates]

end Multiplicity

/-! ## Normal forms -/

namespace NormalForm

variable {α : Type} [Field α]

/-- A multiple of a polynomial. -/
def scaled (k : α) (p : NormalForm α) : NormalForm α := ⟨p.terms.map fun t => (t.1, k * t.2)⟩

theorem degree?_scaled (k : α) (p : NormalForm α) : (p.scaled k).degree? = p.degree? := by
  rw [degree?, scaled, List.head?_map, Option.map_map, degree?]
  rfl

variable [LinearOrder α]

theorem leading_scaled (k : α) (p : NormalForm α) : (p.scaled k).leading = k * p.leading := by
  rw [leading, scaled, leading]
  cases p.terms with
  | nil => simp
  | cons t rest => rfl

/-- A multiple of a canonical form is canonical. -/
theorem Canonical.scaled {k : α} (hk : k ≠ 0) {p : NormalForm α} (hp : p.Canonical) :
    (p.scaled k).Canonical := by
  refine ⟨List.pairwise_map.mpr hp.1, fun t ht => ?_⟩
  obtain ⟨s, hs, rfl⟩ := List.mem_map.mp ht
  simpa [hk] using hp.2 s hs

theorem fillGaps_scaled (k : α) (degree : ℕ) (terms : List (ℕ × α)) :
    fillGaps degree (terms.map fun t => (t.1, k * t.2)) =
      Dense.scaled k (fillGaps degree terms) := by
  induction terms generalizing degree with
  | nil => rfl
  | cons t terms ih =>
      rw [List.map_cons, fillGaps, ih, fillGaps, Dense.scaled, Dense.scaled, List.map_append,
        List.map_replicate, Exact.zero_eq, mul_zero, List.map_cons]

/-- The coefficients are scaled one by one. -/
theorem coefficients_scaled (k : α) (p : NormalForm α) :
    (p.scaled k).coefficients = Dense.scaled k p.coefficients := by
  rw [coefficients, scaled, ← List.map_reverse, fillGaps_scaled, coefficients]

/-- The last coefficient is not zero. -/
theorem reduced_coefficients {p : NormalForm α} (hp : p.Canonical) : Reduced p.coefficients := by
  cases hterms : p.terms with
  | nil =>
      rw [coefficients, hterms]
      exact Dense.reduced_nil
  | cons t rest =>
      obtain ⟨d, c⟩ := t
      obtain ⟨lower, hlower, -⟩ := exists_coefficients hp hterms
      have hc := hp.2 (d, c) (by simp [hterms])
      rw [hlower]
      exact Dense.reduced_concat (by simpa using hc)

end NormalForm

/-! ## The solution -/

namespace Solution

/-- **Roots do not depend on the leading scalar.**  A multiple of a
polynomial of degree one at least either fails to be solved for the reason
for which the polynomial does, or has the same roots with the same
multiplicities in the same order, and the factorizations differ in nothing
but their leading coefficients. -/
theorem ofNormalForm_scaled {p : NormalForm ℝ} (hp : p.Canonical) {n : ℕ}
    (hdegree : p.degree? = some (n + 1)) {k : ℝ} (hk : k ≠ 0) (settings : SolverSettings ℝ) :
    (p.scaled k).Canonical ∧
      ((∃ e, ofNormalForm p settings = .error e ∧ ofNormalForm (p.scaled k) settings = .error e) ∨
        ∃ found, ofNormalForm p settings = .ok (.roots found ⟨p.leading, found⟩) ∧
          ofNormalForm (p.scaled k) settings = .ok (.roots found ⟨k * p.leading, found⟩)) := by
  refine ⟨hp.scaled hk, ?_⟩
  rw [ofNormalForm, ofNormalForm, NormalForm.degree?_scaled, hdegree]
  dsimp only
  rw [NormalForm.coefficients_scaled, NormalForm.leading_scaled, mergeDistance_scaled hk,
    Multiplicity.candidates_scaled hk (NormalForm.reduced_coefficients hp)]
  cases Multiplicity.candidates p.coefficients (mergeDistance settings p.coefficients)
      settings.maxIterations with
  | error e => exact Or.inl ⟨e, rfl, rfl⟩
  | ok found => exact Or.inr ⟨_, rfl, rfl⟩

/-- `5 (2x² - 6)` and `2x² - 6` are solved alike. -/
theorem ofNormalForm_scaled_quadratic :
    NormalForm.Canonical (⟨[(2, 2), (0, -6)]⟩ : NormalForm ℝ) ∧
      (⟨[(2, 2), (0, -6)]⟩ : NormalForm ℝ).degree? = some (1 + 1) ∧ (5 : ℝ) ≠ 0 ∧
      ((∃ e, ofNormalForm (⟨[(2, 2), (0, -6)]⟩ : NormalForm ℝ) ⟨1 / 10 ^ 6, 500⟩ = .error e ∧
          ofNormalForm (NormalForm.scaled 5 (⟨[(2, 2), (0, -6)]⟩ : NormalForm ℝ))
            ⟨1 / 10 ^ 6, 500⟩ = .error e) ∨
        ∃ found,
          ofNormalForm (⟨[(2, 2), (0, -6)]⟩ : NormalForm ℝ) ⟨1 / 10 ^ 6, 500⟩ =
              .ok (.roots found ⟨2, found⟩) ∧
            ofNormalForm (NormalForm.scaled 5 (⟨[(2, 2), (0, -6)]⟩ : NormalForm ℝ))
              ⟨1 / 10 ^ 6, 500⟩ = .ok (.roots found ⟨5 * 2, found⟩)) := by
  have hcanonical : NormalForm.Canonical (⟨[(2, 2), (0, -6)]⟩ : NormalForm ℝ) := by
    simp [NormalForm.Canonical]
  have hk : (5 : ℝ) ≠ 0 := by norm_num
  exact ⟨hcanonical, rfl, hk, (ofNormalForm_scaled hcanonical rfl hk ⟨1 / 10 ^ 6, 500⟩).2⟩

end Solution

end Univariate
