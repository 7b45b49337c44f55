import Univariate.Proofs.Dense.Polynomial
import Univariate.Proofs.Exact.Reals
import Univariate.Roots.Solution

/-!
# How far out the roots lie

One more than the largest coefficient relative to the leading one is Cauchy's
bound of the polynomial: beyond it the leading term outweighs all others
together, which are at most a geometric sum.  So every complex root lies
within it.  It is never below one, and the distance within which roots are
merged is the tolerance in units of it.

* `Solution.cauchyBound_eq` — what is computed is the bound of the
  polynomial;
* `Solution.mergeDistance_eq` — the distance of roots that are merged;
* `Solution.norm_root_lt_cauchyBound` — the roots.
-/

namespace Univariate

namespace Solution

open Polynomial
open Univariate.Dense (toPolynomial Reduced)
open scoped Exact NNReal

/-- The bound, with the leading coefficient apart. -/
theorem cauchyBound_concat (lower : Dense ℝ) (lead : ℝ) :
    cauchyBound (lower ++ [lead]) =
      1 + lower.foldl (fun largest c => max largest (|c| / |lead|)) 0 := by
  rw [cauchyBound, List.reverse_concat]
  simp

/-- The largest magnitude of a coefficient below the leading one. -/
theorem sup_coeff_le_iff (lower : Dense ℝ) (lead : ℝ) (bound : ℝ≥0) :
    (Finset.range lower.length).sup (fun i => ‖(toPolynomial (lower ++ [lead])).coeff i‖₊) ≤
      bound ↔ ∀ c ∈ lower, |c| ≤ bound := by
  rw [Finset.sup_le_iff, List.forall_mem_iff_forall_getElem]
  refine forall_congr' fun i => ?_
  rw [Finset.mem_range]
  refine forall_congr' fun hi => ?_
  rw [← NNReal.coe_le_coe, coe_nnnorm, Real.norm_eq_abs, Dense.coeff_toPolynomial,
    List.getD_append _ _ _ _ hi, List.getD_eq_getElem _ _ hi]

/-- **Cauchy's bound** of the polynomial is what is computed. -/
theorem cauchyBound_eq {p : Dense ℝ} (h : Reduced p) (hp : p ≠ []) :
    cauchyBound p = (Polynomial.cauchyBound (toPolynomial p) : ℝ) := by
  obtain ⟨lower, lead, rfl, hlead⟩ := h.eq_nil_or_concat.resolve_left hp
  have hpos : 0 < |lead| := abs_pos.mpr hlead
  have hsup := sup_coeff_le_iff lower lead
  have hfold := Exact.foldl_max_le_iff (fun c => |c| / |lead|) lower 0
  rw [cauchyBound_concat, Polynomial.cauchyBound, Dense.natDegree_concat hlead,
    Dense.leadingCoeff_concat hlead, NNReal.coe_add, NNReal.coe_div, coe_nnnorm,
    Real.norm_eq_abs, NNReal.coe_one, add_comm, add_left_inj]
  -- What is left compares the largest quotient with the largest coefficient, divided.
  obtain ⟨hnonneg, hle⟩ := (hfold _).mp le_rfl
  refine le_antisymm ((hfold _).mpr ⟨by positivity, ?_⟩) ?_
  · intro c hc
    exact div_le_div_of_nonneg_right ((hsup _).mp le_rfl c hc) hpos.le
  · rw [div_le_iff₀ hpos]
    have hbound := mul_nonneg hnonneg hpos.le
    refine NNReal.coe_le_coe.mpr ((hsup ⟨_, hbound⟩).mpr fun c hc => ?_)
    exact (div_le_iff₀ hpos).mp (hle c hc)

/-- The bound does not change when the coefficients count as complex ones. -/
theorem cauchyBound_map (f : ℝ[X]) :
    Polynomial.cauchyBound (f.map (algebraMap ℝ ℂ)) = Polynomial.cauchyBound f := by
  simp only [Polynomial.cauchyBound, natDegree_map, leadingCoeff_map, coeff_map,
    nnnorm_algebraMap']

/-- The bound is at least one, so that the distance within which roots are
merged is the tolerance in units of it. -/
theorem mergeDistance_eq {p : Dense ℝ} (h : Reduced p) (hp : p ≠ [])
    (settings : SolverSettings ℝ) :
    mergeDistance settings p = settings.rootTolerance * cauchyBound p := by
  have hone : 1 ≤ cauchyBound p := by
    rw [cauchyBound_eq h hp]
    exact_mod_cast one_le_cauchyBound _
  rw [mergeDistance, Exact.max_eq, Exact.one_eq, max_eq_left hone]

/-- **All roots lie within the bound.**  For real coefficients of which the
last is not zero, every complex number at which the polynomial vanishes is
smaller than the bound in magnitude. -/
theorem norm_root_lt_cauchyBound {p : Dense ℝ} (h : Reduced p) (hp : p ≠ []) {z : ℂ}
    (hz : aeval z (toPolynomial p) = 0) : ‖z‖ < cauchyBound p := by
  have hne : (toPolynomial p).map (algebraMap ℝ ℂ) ≠ 0 :=
    (Polynomial.map_ne_zero_iff (algebraMap ℝ ℂ).injective).mpr (h.toPolynomial_ne_zero hp)
  have hroot : ((toPolynomial p).map (algebraMap ℝ ℂ)).IsRoot z := by
    rw [IsRoot.def, eval_map_algebraMap, hz]
  have hlt := hroot.norm_lt_cauchyBound hne
  rw [cauchyBound_map, ← NNReal.coe_lt_coe, coe_nnnorm] at hlt
  rwa [cauchyBound_eq h hp]

/-- The roots of `x² - 2x + 5` are `1 + 2i` and its conjugate, and six is a
bound. -/
theorem norm_root_lt_cauchyBound_pair :
    Reduced ([5, -2, 1] : Dense ℝ) ∧ ([5, -2, 1] : Dense ℝ) ≠ [] ∧
      aeval (⟨1, 2⟩ : ℂ) (toPolynomial ([5, -2, 1] : Dense ℝ)) = 0 ∧
      cauchyBound ([5, -2, 1] : Dense ℝ) = 6 ∧ ‖(⟨1, 2⟩ : ℂ)‖ < 6 := by
  have hreduced : Reduced ([5, -2, 1] : Dense ℝ) := by simp [Reduced]
  have hne : ([5, -2, 1] : Dense ℝ) ≠ [] := List.cons_ne_nil _ _
  have hroot : aeval (⟨1, 2⟩ : ℂ) (toPolynomial ([5, -2, 1] : Dense ℝ)) = 0 := by
    norm_num [Complex.ext_iff]
  have hbound : cauchyBound ([5, -2, 1] : Dense ℝ) = 6 := by
    norm_num [cauchyBound]
  have hlt := norm_root_lt_cauchyBound hreduced hne hroot
  rw [hbound] at hlt
  exact ⟨hreduced, hne, hroot, hbound, hlt⟩

end Solution

end Univariate
