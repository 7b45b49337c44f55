import Univariate.Proofs.Exact.Complex
import Univariate.Proofs.Roots.Scaling

/-!
# The coefficients around a point

Dividing by `x - r` again and again leaves as remainders the coefficients of
the polynomial around `r`: over the reals they are those of its Taylor
expansion there.  The distance within which a cluster of roots lies is read
off their magnitudes, less what rounding may have added to each.

* `Multiplicity.divLinear_spec` — one division;
* `Multiplicity.taylor_eq`, `Multiplicity.taylor_shift` — all of them, and
  the polynomial that they make up;
* `Multiplicity.around`, `Multiplicity.allowance` — the coefficients, and
  what rounding may take of each;
* `Multiplicity.clusterRadius_eq_around` — the distance;
* `Multiplicity.coeff_le_of_clusterRadius`,
  `Multiplicity.exists_clusterRadius_le` — what it says about the
  coefficients, and they about it;
* `Multiplicity.Visible`, `Multiplicity.exists_visible` — coefficients that
  rounding does not hide.
-/

namespace Univariate

namespace Multiplicity

open Polynomial
open scoped Exact

/-! ## Division by linear factors -/

/-- The complex polynomial with these coefficients, lowest degree first. -/
noncomputable def complexPolynomial (cs : List (Cplx ℝ)) : ℂ[X] :=
  Dense.toPolynomial (cs.map Cplx.toComplex)

theorem complexPolynomial_cons (c : Cplx ℝ) (cs : List (Cplx ℝ)) :
    complexPolynomial (c :: cs) = C c.toComplex + X * complexPolynomial cs := rfl

/-- Real coefficients as complex ones. -/
theorem complexPolynomial_ofReal (p : Dense ℝ) :
    complexPolynomial (p.map Cplx.ofReal) = (Dense.toPolynomial p).map (algebraMap ℝ ℂ) := by
  have hcoefficients : (p.map Cplx.ofReal).map Cplx.toComplex = p.map (algebraMap ℝ ℂ) := by
    rw [List.map_map]
    exact List.map_congr_left fun c _ => Cplx.toComplex_ofReal c
  rw [complexPolynomial, hcoefficients]
  exact Dense.toPolynomial_map _ p

/-- **Division by `x - r`** leaves a quotient and the value at `r`. -/
theorem divLinear_spec (r : Cplx ℝ) (cs : List (Cplx ℝ)) :
    complexPolynomial cs = (X - C r.toComplex) * complexPolynomial (divLinear r cs).1 +
      C (divLinear r cs).2.toComplex := by
  induction cs with
  | nil => simp [divLinear, complexPolynomial]
  | cons c cs ih =>
      cases cs with
      | nil => simp [divLinear, complexPolynomial]
      | cons d cs =>
          rw [complexPolynomial_cons, ih, divLinear_cons_cons]
          dsimp only
          rw [complexPolynomial_cons, Cplx.toComplex_add, Cplx.toComplex_mul, C_add, C_mul]
          ring

/-- **The remainders** of repeated division are the coefficients around the
point. -/
theorem taylor_eq (r : Cplx ℝ) (count : ℕ) (cs : List (Cplx ℝ)) :
    (taylor r count cs).map Cplx.toComplex = (List.range count).map fun k =>
      (Polynomial.taylor r.toComplex (complexPolynomial cs)).coeff k := by
  induction count generalizing cs with
  | zero => rfl
  | succ count ih =>
      have hshift : Polynomial.taylor r.toComplex (complexPolynomial cs) =
          X * Polynomial.taylor r.toComplex (complexPolynomial (divLinear r cs).1) +
            C (divLinear r cs).2.toComplex := by
        rw [divLinear_spec r cs, map_add, taylor_mul, map_sub, taylor_X, taylor_C, taylor_C,
          add_sub_cancel_right]
      rw [taylor, List.map_cons, ih, List.range_succ_eq_map, List.map_cons, List.map_map, hshift]
      simp [Function.comp_def]

/-! ## The shifted polynomial -/

/-- **The list has the coefficients of the polynomial around the point.** -/
theorem getElem_taylor (r : Cplx ℝ) (count : ℕ) (cs : List (Cplx ℝ))
    (k : Fin (taylor r count cs).length) : (taylor r count cs)[k].toComplex =
      (Polynomial.taylor r.toComplex (complexPolynomial cs)).coeff k := by
  have hk : (k : ℕ) < count := k.isLt.trans_eq (length_taylor r count cs)
  have hentry := congrArg (fun entries => entries[(k : ℕ)]?) (taylor_eq r count cs)
  simpa [hk] using hentry

/-- **The shift.**  There are as many remainders as there were divisions.
Each is the coefficient that the polynomial has around the point in that
degree, zero where the degree is higher than its own.  Once the last
division has reached its degree, the remainders are all its coefficients
around the point, and give its values there. -/
theorem taylor_shift (r : Cplx ℝ) (m : ℕ) (p : List (Cplx ℝ)) :
    (taylor r (m + 1) p).length = m + 1 ∧
      (∀ k : Fin (taylor r (m + 1) p).length, (taylor r (m + 1) p)[k].toComplex =
        ((complexPolynomial p).comp (C r.toComplex + X)).coeff k) ∧
      (∀ k : Fin (taylor r (m + 1) p).length, (complexPolynomial p).natDegree < k →
        (taylor r (m + 1) p)[k].toComplex = 0) ∧
      ((complexPolynomial p).natDegree ≤ m → ∀ t : ℂ,
        (complexPolynomial p).eval (r.toComplex + t) =
          ∑ k : Fin (taylor r (m + 1) p).length,
            (taylor r (m + 1) p)[k].toComplex * t ^ (k : ℕ)) := by
  have hlength : (taylor r (m + 1) p).length = m + 1 := length_taylor r (m + 1) p
  have hentry := getElem_taylor r (m + 1) p
  refine ⟨hlength, fun k => ?_, fun k hk => ?_, fun hdegree t => ?_⟩
  · rw [hentry k, taylor_apply, add_comm]
  · rw [hentry k]
    refine coeff_eq_zero_of_natDegree_lt ?_
    rwa [natDegree_taylor]
  · have hlt : (Polynomial.taylor r.toComplex (complexPolynomial p)).natDegree < m + 1 := by
      rw [natDegree_taylor]
      exact Nat.lt_succ_of_le hdegree
    calc (complexPolynomial p).eval (r.toComplex + t)
        = (Polynomial.taylor r.toComplex (complexPolynomial p)).eval t := by
          rw [taylor_eval, add_comm]
      _ = ∑ k ∈ Finset.range (m + 1),
            (Polynomial.taylor r.toComplex (complexPolynomial p)).coeff k * t ^ k :=
          eval_eq_sum_range' hlt t
      _ = ∑ k ∈ Finset.range (taylor r (m + 1) p).length,
            (Polynomial.taylor r.toComplex (complexPolynomial p)).coeff k * t ^ k := by
          rw [hlength]
      _ = ∑ k : Fin (taylor r (m + 1) p).length,
            (Polynomial.taylor r.toComplex (complexPolynomial p)).coeff k * t ^ (k : ℕ) :=
          Finset.sum_range _
      _ = ∑ k : Fin (taylor r (m + 1) p).length,
            (taylor r (m + 1) p)[k].toComplex * t ^ (k : ℕ) :=
          Finset.sum_congr rfl fun k _ => by rw [hentry k]

/-- The polynomial `x² + i` around `i`, with one division to spare. -/
theorem taylor_shift_square :
    let p : List (Cplx ℝ) := [⟨0, 1⟩, ⟨0, 0⟩, ⟨1, 0⟩]
    (taylor ⟨0, 1⟩ 4 p).map Cplx.toComplex = [-1 + Complex.I, 2 * Complex.I, 1, 0] ∧
      (complexPolynomial p).natDegree < 3 ∧ (taylor ⟨0, 1⟩ 4 p)[3].toComplex = 0 ∧
      ∀ t : ℂ, (complexPolynomial p).eval (Cplx.toComplex ⟨0, 1⟩ + t) =
        ∑ k : Fin (taylor ⟨0, 1⟩ 4 p).length, (taylor ⟨0, 1⟩ 4 p)[k].toComplex * t ^ (k : ℕ) := by
  intro p
  have hrun : (taylor ⟨0, 1⟩ 4 p).map Cplx.toComplex =
      [-1 + Complex.I, 2 * Complex.I, 1, 0] := by
    norm_num [p, taylor, divLinear, Complex.ext_iff]
  have hdegree : (complexPolynomial p).natDegree < 3 := by
    have hlt := Dense.degree_toPolynomial_lt (p.map Cplx.toComplex)
    exact Nat.lt_succ_of_le (natDegree_le_of_degree_le (Order.lt_succ_iff.mp hlt))
  obtain ⟨hlength, -, hbeyond, hvalue⟩ := taylor_shift ⟨0, 1⟩ 3 p
  exact ⟨hrun, hdegree, hbeyond ⟨3, by simp [hlength]⟩ hdegree, hvalue hdegree.le⟩

/-! ## The coefficients of a real polynomial -/

/-- The polynomial around a point. -/
noncomputable def around (p : Dense ℝ) (z : Cplx ℝ) : ℂ[X] :=
  Polynomial.taylor z.toComplex ((Dense.toPolynomial p).map (algebraMap ℝ ℂ))

/-- What rounding may take of a coefficient around a point: a share of the
coefficient that the magnitudes have around its magnitude. -/
noncomputable def allowance (p : Dense ℝ) (z : Cplx ℝ) (k : ℕ) : ℝ :=
  roundingShare p * (Polynomial.taylor z.norm (Dense.toPolynomial (p.map abs))).coeff k

/-- The sizes are those of the polynomial around the point. -/
theorem sizes_eq (p : Dense ℝ) (z : Cplx ℝ) (count : ℕ) :
    (taylor z count (p.map Cplx.ofReal)).map Cplx.norm =
      (List.range count).map fun k => ‖(around p z).coeff k‖ := by
  have hnorm : (Cplx.norm : Cplx ℝ → ℝ) = norm ∘ Cplx.toComplex := funext Cplx.norm_eq
  rw [hnorm, ← List.map_map, taylor_eq, complexPolynomial_ofReal, List.map_map]
  rfl

/-- The errors allowed for are those of the magnitudes. -/
theorem allowances_eq (p : Dense ℝ) (z : Cplx ℝ) (count : ℕ) :
    (taylor (Cplx.ofReal z.norm) count (p.map fun c => Cplx.ofReal (Scalar.abs c))).map
        (fun b => roundingShare p * b.re) = (List.range count).map (allowance p z) := by
  have hmap : (p.map fun c => Cplx.ofReal (Scalar.abs c)) = (p.map abs).map Cplx.ofReal := by
    rw [List.map_map]
    rfl
  have hre : (fun b : Cplx ℝ => roundingShare p * b.re) =
      (fun w : ℂ => roundingShare p * w.re) ∘ Cplx.toComplex := rfl
  rw [hre, ← List.map_map, hmap, taylor_eq, complexPolynomial_ofReal, List.map_map]
  refine List.map_congr_left fun k _ => ?_
  have hreal := map_taylor (Dense.toPolynomial (p.map abs)) z.norm (algebraMap ℝ ℂ)
  rw [Function.comp_apply, Cplx.toComplex_ofReal, ← Complex.coe_algebraMap, ← hreal, coeff_map]
  rfl

theorem roundingShare_nonneg (p : Dense ℝ) : 0 ≤ roundingShare p := by
  have hepsilon : (0 : ℝ) ≤ Scalar.epsilon := by
    rw [Scalar.epsilon, Exact.one_eq, Exact.ofNat_eq]
    positivity
  rw [roundingShare, Exact.ofNat_eq, Exact.ofNat_eq]
  positivity

/-- An error allowed for is not negative. -/
theorem allowance_nonneg (p : Dense ℝ) (z : Cplx ℝ) (k : ℕ) : 0 ≤ allowance p z k := by
  refine mul_nonneg (roundingShare_nonneg p) ?_
  rw [taylor_coeff, eval_eq_sum_range]
  refine Finset.sum_nonneg fun i _ => mul_nonneg ?_ (pow_nonneg (Cplx.norm_nonneg z) i)
  have habs (j : ℕ) : 0 ≤ (p.map abs).getD j 0 := by
    rw [List.getD_eq_getElem?_getD, List.getElem?_map]
    cases p[j]? with
    | none => exact le_rfl
    | some c => exact abs_nonneg c
  rw [hasseDeriv_coeff, Dense.coeff_toPolynomial]
  exact mul_nonneg (Nat.cast_nonneg _) (habs _)

/-! ## The distance -/

/-- What a coefficient contributes to the distance. -/
noncomputable def contribution (s a : ℕ → ℝ) (m k : ℕ) : ℝ :=
  2 * (max (s k - a k) 0 / s m) ^ (1 / ((m - k : ℕ) : ℝ))

/-- **The radius is the largest contribution**, if the leading size is beyond
its error. -/
theorem radiusFrom_range (m : ℕ) (s a : ℕ → ℝ) :
    radiusFrom m ((List.range (m + 1)).map s) ((List.range (m + 1)).map a) =
      if s m ≤ a m then none
      else some ((List.range m).foldl (fun largest k => max largest (contribution s a m k)) 0) := by
  rw [radiusFrom_map_range]
  simp only [Exact.le_eq, decide_eq_true_eq, Exact.max_eq, Exact.zero_eq, scalarContribution,
    Exact.ofNat_eq]
  rfl

/-- **The distance**, in terms of the coefficients around the point. -/
theorem clusterRadius_eq_around (p : Dense ℝ) (z : Cplx ℝ) (m : ℕ) :
    clusterRadius p z m =
      if ‖(around p z).coeff m‖ ≤ allowance p z m then none
      else some ((List.range m).foldl (fun largest k =>
        max largest (contribution (fun k => ‖(around p z).coeff k‖) (allowance p z) m k)) 0) := by
  rw [clusterRadius_eq, sizes_eq, allowances_eq, radiusFrom_range]

/-- The distance is at least what a coefficient contributes, and that is
enough for the coefficient. -/
theorem sub_le_of_contribution_le {s a : ℕ → ℝ} {m k : ℕ} {ρ : ℝ} (hlead : 0 < s m) (hk : k < m)
    (h : contribution s a m k ≤ ρ) : s k - a k ≤ s m * (ρ / 2) ^ (m - k) := by
  have hrest : 0 ≤ max (s k - a k) 0 / s m := div_nonneg (le_max_right _ _) hlead.le
  have hroot : (max (s k - a k) 0 / s m) ^ (((m - k : ℕ) : ℝ))⁻¹ ≤ ρ / 2 := by
    rw [contribution, one_div] at h
    linarith
  have hpow := pow_le_pow_left₀ (Real.rpow_nonneg hrest _) hroot (m - k)
  rw [Real.rpow_inv_natCast_pow hrest (Nat.sub_ne_zero_of_lt hk), div_le_iff₀ hlead] at hpow
  calc s k - a k ≤ max (s k - a k) 0 := le_max_left _ _
    _ ≤ (ρ / 2) ^ (m - k) * s m := hpow
    _ = s m * (ρ / 2) ^ (m - k) := mul_comm _ _

/-- **What the distance says** about the coefficients around the point: that
of degree `m` is there, and the lower ones, less what rounding may have
added, are as small as those of roots half as far away. -/
theorem coeff_le_of_clusterRadius {p : Dense ℝ} {z : Cplx ℝ} {m : ℕ} {radius : ℝ}
    (h : clusterRadius p z m = some radius) :
    0 ≤ radius ∧ 0 < ‖(around p z).coeff m‖ ∧
      ∀ k < m, ‖(around p z).coeff k‖ - allowance p z k ≤
        ‖(around p z).coeff m‖ * (radius / 2) ^ (m - k) := by
  rw [clusterRadius_eq_around] at h
  split_ifs at h with hlead
  have hpos : 0 < ‖(around p z).coeff m‖ := (allowance_nonneg p z m).trans_lt (not_le.mp hlead)
  obtain ⟨hzero, hall⟩ := (Exact.foldl_max_le_iff _ _ _ _).mp (Option.some.inj h).le
  exact ⟨hzero, hpos, fun k hk =>
    sub_le_of_contribution_le hpos hk (hall k (List.mem_range.mpr hk))⟩

/-- A coefficient that is small enough contributes at most `ρ`. -/
theorem contribution_le {s a : ℕ → ℝ} {m k : ℕ} {ρ : ℝ} (hlead : 0 < s m) (ha : 0 ≤ a k)
    (hρ : 0 ≤ ρ) (hk : k < m) (h : s k ≤ s m * (ρ / 2) ^ (m - k)) : contribution s a m k ≤ ρ := by
  have hhalf : 0 ≤ ρ / 2 := by positivity
  have hrest : max (s k - a k) 0 / s m ≤ (ρ / 2) ^ (m - k) := by
    rw [div_le_iff₀ hlead, mul_comm]
    exact max_le (by linarith) (by positivity)
  have hroot := Real.rpow_le_rpow (div_nonneg (le_max_right _ _) hlead.le) hrest
    (inv_nonneg.mpr (Nat.cast_nonneg (m - k)))
  rw [Real.pow_rpow_inv_natCast hhalf (Nat.sub_ne_zero_of_lt hk)] at hroot
  rw [contribution, one_div]
  linarith

/-- The distance is at most one at which roots could have all lower
coefficients. -/
theorem exists_clusterRadius_le {p : Dense ℝ} {z : Cplx ℝ} {m : ℕ} {ρ : ℝ} (hρ : 0 ≤ ρ)
    (hlead : allowance p z m < ‖(around p z).coeff m‖)
    (h : ∀ k < m, ‖(around p z).coeff k‖ ≤ ‖(around p z).coeff m‖ * (ρ / 2) ^ (m - k)) :
    ∃ radius ≤ ρ, clusterRadius p z m = some radius := by
  have hpos := (allowance_nonneg p z m).trans_lt hlead
  rw [clusterRadius_eq_around, if_neg (not_le.mpr hlead)]
  refine ⟨_, (Exact.foldl_max_le_iff _ _ _ _).mpr ⟨hρ, fun k hk => ?_⟩, rfl⟩
  have hk := List.mem_range.mp hk
  exact contribution_le hpos (allowance_nonneg p z k) hρ hk (h k hk)

/-- Rounding hides nothing that roots within `ρ` could not have: every lower
coefficient is as small as theirs, or two million times as large as what
rounding may take of it. -/
def Visible (p : Dense ℝ) (z : Cplx ℝ) (m : ℕ) (ρ : ℝ) : Prop :=
  ∀ k < m, ‖(around p z).coeff k‖ ≤ ‖(around p z).coeff m‖ * (ρ / 2) ^ (m - k) ∨
    (2 * 10 ^ 6 + 1) * allowance p z k ≤ ‖(around p z).coeff k‖

/-- There always is a distance at which rounding hides nothing. -/
theorem exists_visible {p : Dense ℝ} {z : Cplx ℝ} {m : ℕ} {radius : ℝ}
    (h : clusterRadius p z m = some radius) : ∃ ρ, radius ≤ ρ ∧ Visible p z m ρ := by
  have hpos := (coeff_le_of_clusterRadius h).2.1
  let largest := (List.range m).foldl (fun b k => max b ‖(around p z).coeff k‖) 0
  obtain ⟨hzero, hall⟩ : 0 ≤ largest ∧ ∀ k ∈ List.range m, ‖(around p z).coeff k‖ ≤ largest :=
    (Exact.foldl_max_le_iff _ _ _ _).mp le_rfl
  refine ⟨max radius (2 * (1 + largest / ‖(around p z).coeff m‖)), le_max_left _ _, ?_⟩
  intro k hk
  left
  have hhalf : 1 + largest / ‖(around p z).coeff m‖ ≤
      max radius (2 * (1 + largest / ‖(around p z).coeff m‖)) / 2 := by
    rw [le_div_iff₀ two_pos, mul_comm]
    exact le_max_right _ _
  have hone : 1 ≤ max radius (2 * (1 + largest / ‖(around p z).coeff m‖)) / 2 :=
    le_trans (by linarith [div_nonneg hzero hpos.le]) hhalf
  calc ‖(around p z).coeff k‖ ≤ largest := hall k (List.mem_range.mpr hk)
    _ ≤ ‖(around p z).coeff m‖ * (1 + largest / ‖(around p z).coeff m‖) := by
        rw [mul_add, mul_div_cancel₀ _ hpos.ne']
        linarith
    _ ≤ _ := mul_le_mul_of_nonneg_left
        (hhalf.trans (le_self_pow₀ hone (Nat.sub_ne_zero_of_lt hk))) hpos.le

/-! ## Around the origin -/

/-- Around the origin the coefficients are the given ones. -/
theorem coeff_around_zero (p : Dense ℝ) (k : ℕ) :
    (around p Cplx.zero).coeff k = (p.getD k 0 : ℝ) := by
  rw [around, Cplx.toComplex_zero, taylor_zero, coeff_map, Dense.coeff_toPolynomial]
  rfl

/-- Around the origin the error is relative to the coefficient. -/
theorem allowance_zero (p : Dense ℝ) (k : ℕ) :
    allowance p Cplx.zero k = roundingShare p * |p.getD k 0| := by
  have hnorm : (Cplx.zero : Cplx ℝ).norm = 0 := by
    rw [Cplx.norm_eq, Cplx.toComplex_zero, norm_zero]
  have habs : (p.map abs).getD k 0 = |p.getD k 0| := by
    rw [← abs_zero, List.getD_map, abs_zero]
  rw [allowance, hnorm, taylor_zero, Dense.coeff_toPolynomial, habs]

end Multiplicity

end Univariate
