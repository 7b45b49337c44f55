import Univariate.Proofs.Roots.Taylor

/-!
# How many roots are near a point

The distance of a cluster of `m` roots is read off the coefficients around a
point up to degree `m`.  If these are as small as those of `m` roots within
that distance are, taking out roots that are further away leaves them almost
as they are; and taking out one root too many leaves a polynomial of degree
less than `m`, whose coefficient of degree `m` cannot be what it was.  How
far is further away depends on how many roots there are besides: the
coefficients above `m`, which would tell, are not looked at.

* `Multiplicity.Decays`, `Multiplicity.Decays.quotient` — small coefficients,
  and those of the quotient by a far root;
* `Multiplicity.remainder_le_half` — far roots taken out until the degree is
  too low;
* `Multiplicity.Share`, `Multiplicity.le_countP_of_decays` — how many roots
  are near;
* `Multiplicity.clusterRadius_encloses` — the distance of a cluster;
* `Multiplicity.clusterRadius_power_six` — a cluster that is not there.
-/

namespace Univariate

namespace Multiplicity

open Polynomial
open scoped Exact

variable {f g : ℂ[X]} {w : ℂ} {far near roots : List ℂ} {x bound : ℝ} {m : ℕ}

/-! ## Taking out a root that is far away -/

/-- The linear polynomial that is one at the origin and vanishes at `w`. -/
noncomputable def unitFactor (w : ℂ) : ℂ[X] := 1 - C w⁻¹ * X

theorem coeff_unitFactor_mul_zero (w : ℂ) (g : ℂ[X]) : (unitFactor w * g).coeff 0 = g.coeff 0 := by
  simp [unitFactor, mul_coeff_zero]

/-- Every other coefficient takes a share of the one before. -/
theorem coeff_unitFactor_mul_succ (w : ℂ) (g : ℂ[X]) (k : ℕ) :
    (unitFactor w * g).coeff (k + 1) = g.coeff (k + 1) - w⁻¹ * g.coeff k := by
  rw [unitFactor, sub_mul, one_mul, coeff_sub, mul_assoc, coeff_C_mul, coeff_X_mul]

/-- The coefficients up to degree `m` decrease at least as the powers of
`x` do. -/
def Decays (f : ℂ[X]) (bound x : ℝ) (m : ℕ) : Prop :=
  ∀ k ≤ m, ‖f.coeff k‖ ≤ bound * x ^ (m - k)

/-- A bound of magnitudes is not negative. -/
theorem Decays.bound_nonneg (h : Decays f bound x m) : 0 ≤ bound := by
  have hm := (norm_nonneg _).trans (h m le_rfl)
  rwa [Nat.sub_self, pow_zero, mul_one] at hm

/-- What is left of one, less the part of a root that is far away. -/
theorem one_sub_div_pos (hw : x < ‖w‖) (hx : 0 ≤ x) : 0 < 1 - x / ‖w‖ :=
  sub_pos.mpr ((div_lt_one (hx.trans_lt hw)).mpr hw)

/-- **The quotient** by a root that is far away has coefficients almost as
small. -/
theorem Decays.quotient (hx : 0 ≤ x) (hw : x < ‖w‖) (h : Decays (unitFactor w * g) bound x m) :
    Decays g (bound / (1 - x / ‖w‖)) x m := by
  have hrest := one_sub_div_pos hw hx
  have hbound : bound + x / ‖w‖ * (bound / (1 - x / ‖w‖)) = bound / (1 - x / ‖w‖) := by
    field_simp
    ring
  intro k hk
  induction k with
  | zero =>
      have hzero := h 0 hk
      rw [coeff_unitFactor_mul_zero] at hzero
      refine hzero.trans (mul_le_mul_of_nonneg_right ?_ (pow_nonneg hx _))
      exact le_div_self h.bound_nonneg hrest (sub_le_self _ (by positivity))
  | succ k ih =>
      have hstep : g.coeff (k + 1) = (unitFactor w * g).coeff (k + 1) + w⁻¹ * g.coeff k := by
        rw [coeff_unitFactor_mul_succ, sub_add_cancel]
      have hpow : x ^ (m - k) = x * x ^ (m - (k + 1)) := by
        rw [← pow_succ']
        congr 1
        omega
      calc ‖g.coeff (k + 1)‖
          ≤ ‖(unitFactor w * g).coeff (k + 1)‖ + ‖w⁻¹ * g.coeff k‖ := by
            rw [hstep]
            exact norm_add_le _ _
        _ ≤ bound * x ^ (m - (k + 1)) +
              ‖w‖⁻¹ * (bound / (1 - x / ‖w‖) * (x * x ^ (m - (k + 1)))) := by
            rw [norm_mul, norm_inv, ← hpow]
            gcongr
            · exact h (k + 1) hk
            · exact ih (Nat.le_of_succ_le hk)
        _ = (bound + x / ‖w‖ * (bound / (1 - x / ‖w‖))) * x ^ (m - (k + 1)) := by ring
        _ = bound / (1 - x / ‖w‖) * x ^ (m - (k + 1)) := by rw [hbound]

/-- The last coefficient changes by no more than the bound does. -/
theorem Decays.norm_sub_le (hx : 0 ≤ x) (hw : x < ‖w‖) (h : Decays (unitFactor w * g) bound x m) :
    ‖g.coeff m - (unitFactor w * g).coeff m‖ ≤ bound / (1 - x / ‖w‖) - bound := by
  have hrest := one_sub_div_pos hw hx
  have hbound : ‖w‖⁻¹ * (bound / (1 - x / ‖w‖) * x) = bound / (1 - x / ‖w‖) - bound := by
    field_simp
    ring
  cases m with
  | zero =>
      rw [coeff_unitFactor_mul_zero, sub_self, norm_zero, ← hbound]
      have := h.bound_nonneg
      positivity
  | succ m =>
      have hlast := h.quotient hx hw m (Nat.le_succ m)
      rw [Nat.succ_sub le_rfl, Nat.sub_self, pow_one] at hlast
      rw [coeff_unitFactor_mul_succ, sub_sub_cancel, norm_mul, norm_inv, ← hbound]
      gcongr

/-- What is left of one, less the parts of roots that are far away. -/
noncomputable def remainder (x : ℝ) (far : List ℂ) : ℝ := (far.map fun w => 1 - x / ‖w‖).prod

theorem remainder_cons (x : ℝ) (w : ℂ) (far : List ℂ) :
    remainder x (w :: far) = (1 - x / ‖w‖) * remainder x far := List.prod_cons

/-- Something is left if all roots are far away. -/
theorem remainder_pos (hx : 0 ≤ x) (hfar : ∀ w ∈ far, x < ‖w‖) : 0 < remainder x far :=
  List.prod_pos fun _ h => by
    obtain ⟨w, hw, rfl⟩ := List.mem_map.mp h
    exact one_sub_div_pos (hfar w hw) hx

/-- Many roots that are far away are taken out. -/
theorem Decays.norm_sub_le_of_far (hx : 0 ≤ x) (hfar : ∀ w ∈ far, x < ‖w‖)
    (h : Decays ((far.map unitFactor).prod * g) bound x m) :
    ‖g.coeff m - ((far.map unitFactor).prod * g).coeff m‖ ≤ bound / remainder x far - bound := by
  induction far generalizing bound with
  | nil => simp [remainder]
  | cons w far ih =>
      obtain ⟨hw, hfar⟩ := List.forall_mem_cons.mp hfar
      rw [List.map_cons, List.prod_cons, mul_assoc] at h ⊢
      have hfirst := h.norm_sub_le hx hw
      have hothers := ih hfar (h.quotient hx hw)
      rw [div_div] at hothers
      have htriangle := norm_sub_le_norm_sub_add_norm_sub (g.coeff m)
        (((far.map unitFactor).prod * g).coeff m)
        ((unitFactor w * ((far.map unitFactor).prod * g)).coeff m)
      rw [remainder_cons]
      linarith

/-- **Too many roots are taken out** if the degree of what is left is too
low: together they have half of the last coefficient at least. -/
theorem remainder_le_half (hx : 0 ≤ x) (hfar : ∀ w ∈ far, x < ‖w‖)
    (hf : f = (far.map unitFactor).prod * g) (hdegree : g.natDegree < m)
    (hpos : 0 < ‖f.coeff m‖) (h : Decays f ‖f.coeff m‖ x m) : remainder x far ≤ 1 / 2 := by
  have hrest := remainder_pos hx hfar
  have hchange : ‖f.coeff m‖ ≤ ‖f.coeff m‖ / remainder x far - ‖f.coeff m‖ := by
    rw [hf] at h
    have hall := h.norm_sub_le_of_far hx hfar
    rwa [coeff_eq_zero_of_natDegree_lt hdegree, zero_sub, norm_neg, ← hf] at hall
  have htwice : ‖f.coeff m‖ * 2 ≤ ‖f.coeff m‖ / remainder x far := by linarith
  rw [le_div_iff₀ hrest, mul_assoc] at htwice
  have hone : 2 * remainder x far ≤ 1 :=
    le_of_mul_le_mul_left (htwice.trans_eq (mul_one _).symm) hpos
  linarith

/-- **Roots that take at most a share `θ` each** leave this much. -/
theorem one_sub_mul_le_remainder {θ : ℝ} (hθ : θ ≤ 1)
    (hfar : ∀ w ∈ far, x / ‖w‖ ≤ θ) : 1 - far.length * θ ≤ remainder x far := by
  have hpow : (1 - θ) ^ far.length ≤ remainder x far := by
    induction far with
    | nil => simp [remainder]
    | cons w far ih =>
        obtain ⟨hw, hfar⟩ := List.forall_mem_cons.mp hfar
        rw [List.length_cons, pow_succ', remainder_cons]
        have hone : 0 ≤ 1 - θ := sub_nonneg.mpr hθ
        exact mul_le_mul (by linarith) (ih hfar) (pow_nonneg hone _) (by linarith)
  have hbernoulli : 1 + far.length * -θ ≤ (1 + -θ) ^ far.length :=
    one_add_mul_le_pow (by linarith) _
  rw [mul_neg, ← sub_eq_add_neg, ← sub_eq_add_neg] at hbernoulli
  exact hbernoulli.trans hpow

/-! ## How many roots are near -/

/-- The polynomial with these roots and this leading coefficient. -/
noncomputable def withRoots (lead : ℂ) (roots : List ℂ) : ℂ[X] :=
  C lead * (roots.map fun r => X - C r).prod

variable {lead : ℂ}

theorem withRoots_cons (lead w : ℂ) (roots : List ℂ) :
    withRoots lead (w :: roots) = (X - C w) * withRoots lead roots := by
  rw [withRoots, List.map_cons, List.prod_cons, mul_left_comm, withRoots]

/-- The order of the roots does not matter. -/
theorem withRoots_perm {roots' : List ℂ} (h : roots.Perm roots') :
    withRoots lead roots = withRoots lead roots' := by
  rw [withRoots, (h.map _).prod_eq, withRoots]

/-- The degree is at most the number of roots. -/
theorem natDegree_withRoots_le (lead : ℂ) (roots : List ℂ) :
    (withRoots lead roots).natDegree ≤ roots.length := by
  induction roots with
  | nil => simp [withRoots]
  | cons w roots ih =>
      rw [withRoots_cons, List.length_cons, add_comm]
      exact natDegree_mul_le.trans (add_le_add (natDegree_X_sub_C w).le ih)

/-- **Seen from `z`, the roots are moved by `z`.** -/
theorem taylor_withRoots (lead z : ℂ) (roots : List ℂ) :
    Polynomial.taylor z (withRoots lead roots) = withRoots lead (roots.map (· - z)) := by
  induction roots with
  | nil => simp [withRoots]
  | cons w roots ih =>
      rw [withRoots_cons, taylor_mul, ih, List.map_cons, withRoots_cons, map_sub, taylor_X,
        taylor_C, C_sub]
      ring

/-- A root other than zero is taken out as a unit factor. -/
theorem X_sub_C_eq (hw : w ≠ 0) : X - C w = C (-w) * unitFactor w := by
  have hcancel : C w * C w⁻¹ = 1 := by rw [← C_mul, mul_inv_cancel₀ hw, C_1]
  rw [unitFactor, C_neg]
  linear_combination -X * hcancel

/-- Roots other than the origin are taken out. -/
theorem exists_quotient (lead : ℂ) (near : List ℂ) (hfar : ∀ w ∈ far, w ≠ 0) :
    ∃ g, g.natDegree ≤ near.length ∧
      withRoots lead (far ++ near) = (far.map unitFactor).prod * g := by
  induction far with
  | nil => exact ⟨withRoots lead near, natDegree_withRoots_le lead near, by simp⟩
  | cons w far ih =>
      obtain ⟨hw, hfar⟩ := List.forall_mem_cons.mp hfar
      obtain ⟨g, hdegree, hg⟩ := ih hfar
      refine ⟨C (-w) * g, (natDegree_C_mul_le _ _).trans hdegree, ?_⟩
      rw [List.cons_append, withRoots_cons, hg, X_sub_C_eq hw, List.map_cons, List.prod_cons]
      ring

/-- Fewer than `m` roots are near and all but `m` are far away: then there
is one more that is not near. -/
theorem exists_perm_of_countP_lt {inner outer : ℝ} (hm : m ≤ roots.length)
    (hnear : roots.countP (fun w => ‖w‖ ≤ inner) < m)
    (hfar : roots.length - m ≤ roots.countP (fun w => outer < ‖w‖)) :
    ∃ (w : ℂ) (far near : List ℂ), roots.Perm (w :: far ++ near) ∧
      far.length = roots.length - m ∧ near.length < m ∧ inner < ‖w‖ ∧ ∀ w ∈ far, outer < ‖w‖ := by
  classical
  let beyond := roots.filter fun w => outer < ‖w‖
  let far := beyond.take (roots.length - m)
  let others := beyond.drop (roots.length - m) ++ roots.filter fun w => !decide (outer < ‖w‖)
  have hperm : roots.Perm (far ++ others) := by
    rw [← List.append_assoc, List.take_append_drop]
    exact (List.filter_append_perm _ roots).symm
  have hlength : far.length = roots.length - m := by
    rw [List.length_take, ← List.countP_eq_length_filter]
    exact min_eq_left hfar
  have hothers : others.length = m := by
    have h := hperm.length_eq
    rw [List.length_append] at h
    omega
  obtain ⟨w, hw, hwfar⟩ : ∃ w ∈ others, inner < ‖w‖ := by
    by_contra! hnone
    have hall : others.countP (fun w => ‖w‖ ≤ inner) = others.length :=
      List.countP_eq_length.mpr fun w hw => decide_eq_true (hnone w hw)
    rw [hperm.countP_eq, List.countP_append] at hnear
    omega
  refine ⟨w, far, others.erase w, ?_, hlength, ?_, hwfar, fun v hv => ?_⟩
  · exact hperm.trans ((List.perm_cons_erase hw).append_left far |>.trans List.perm_middle)
  · rw [List.length_erase_of_mem hw]
    have := List.length_pos_of_mem hw
    omega
  · simpa using List.of_mem_filter (List.mem_of_mem_take hv)

/-- A root further away than `d` takes less than the share `θ` of a
coefficient. -/
structure Share (x d θ : ℝ) : Prop where
  distance : 0 ≤ d
  pos : 0 < θ
  lt_one : θ < 1
  le : x ≤ θ * d

namespace Share

variable {d θ : ℝ}

/-- The least distance for a share. -/
theorem inv_mul (hx : 0 ≤ x) (hpos : 0 < θ) (hone : θ < 1) : Share x (θ⁻¹ * x) θ where
  distance := by positivity
  pos := hpos
  lt_one := hone
  le := (mul_inv_cancel_left₀ hpos.ne' x).ge

/-- The share of a root that is far away is below `θ`. -/
theorem div_lt (h : Share x d θ) (hw : d < ‖w‖) : x / ‖w‖ < θ :=
  (div_lt_iff₀ (h.distance.trans_lt hw)).mpr
    (h.le.trans_lt (mul_lt_mul_of_pos_left hw h.pos))

/-- A root that is far away is further away than `x`. -/
theorem lt_norm (h : Share x d θ) (hw : d < ‖w‖) : x < ‖w‖ :=
  (div_lt_one (h.distance.trans_lt hw)).mp ((h.div_lt hw).trans h.lt_one)

end Share

/-- **How many roots are near**, if the coefficients are as small as those of
roots at distance `x`, and all but `m` roots are far away: one root that is
not near and these others would take half of a coefficient. -/
theorem le_countP_of_decays {inner outer θ θ' : ℝ} (hx : 0 ≤ x)
    (hpos : 0 < ‖(withRoots lead roots).coeff m‖)
    (hdecays : Decays (withRoots lead roots) ‖(withRoots lead roots).coeff m‖ x m)
    (hinner : Share x inner θ) (houter : Share x outer θ')
    (hhalf : 1 / 2 ≤ (1 - θ) * (1 - (roots.length - m : ℕ) * θ'))
    (hfar : roots.length - m ≤ roots.countP (fun w => outer < ‖w‖)) :
    m ≤ roots.countP (fun w => ‖w‖ ≤ inner) := by
  by_contra hfew
  have hm : m ≤ roots.length := by
    by_contra hlow
    refine hpos.ne' (norm_eq_zero.mpr (coeff_eq_zero_of_natDegree_lt ?_))
    exact (natDegree_withRoots_le lead roots).trans_lt (not_le.mp hlow)
  obtain ⟨w, far, near, hperm, hlength, hnear, hw, hfar⟩ :=
    exists_perm_of_countP_lt hm (not_le.mp hfew) hfar
  have hbeyond : ∀ v ∈ w :: far, x < ‖v‖ :=
    List.forall_mem_cons.mpr ⟨hinner.lt_norm hw, fun v hv => houter.lt_norm (hfar v hv)⟩
  obtain ⟨g, hdegree, hg⟩ := exists_quotient lead near fun v hv =>
    norm_pos_iff.mp (hx.trans_lt (hbeyond v hv))
  rw [withRoots_perm hperm] at hpos hdecays
  have hmost := remainder_le_half hx hbeyond hg (hdegree.trans_lt hnear) hpos hdecays
  -- but more than half is left
  have hone : 0 < 1 - θ := sub_pos.mpr hinner.lt_one
  have hshare : 1 - θ < 1 - x / ‖w‖ := sub_lt_sub_left (hinner.div_lt hw) 1
  have hrest : 1 - (roots.length - m : ℕ) * θ' ≤ remainder x far := by
    rw [← hlength]
    exact one_sub_mul_le_remainder houter.lt_one.le fun v hv => (houter.div_lt (hfar v hv)).le
  have hrestpos : 0 < 1 - (roots.length - m : ℕ) * θ' :=
    pos_of_mul_pos_right (one_half_pos.trans_le hhalf) hone.le
  rw [remainder_cons] at hmost
  refine absurd hmost (not_le.mpr ?_)
  calc 1 / 2 ≤ (1 - θ) * (1 - (roots.length - m : ℕ) * θ') := hhalf
    _ < (1 - x / ‖w‖) * (1 - (roots.length - m : ℕ) * θ') :=
        mul_lt_mul_of_pos_right hshare hrestpos
    _ ≤ (1 - x / ‖w‖) * remainder x far :=
        mul_le_mul_of_nonneg_left hrest (hone.trans hshare).le

/-- At least `m` roots are near, if near grows with the number of the
others. -/
theorem le_countP_mul (hx : 0 ≤ x) (hpos : 0 < ‖(withRoots lead roots).coeff m‖)
    (hdecays : Decays (withRoots lead roots) ‖(withRoots lead roots).coeff m‖ x m) :
    m ≤ roots.countP (fun w => ‖w‖ ≤ 2 * (roots.length - m + 1 : ℕ) * x) := by
  by_contra hfew
  generalize hn : roots.length - m = n at hfew
  obtain ⟨θ, hθ⟩ : ∃ θ : ℝ, θ⁻¹ = 2 * (n + 1 : ℕ) := ⟨_, inv_inv _⟩
  have hpos' : 0 < θ := by
    rw [← inv_pos, hθ]
    positivity
  have hshares : (n + 1) * θ = 1 / 2 := by
    rw [← inv_inv θ, hθ]
    push_cast
    field_simp
  have hn0 : 0 ≤ n * θ := by positivity
  have hshare : Share x (2 * (n + 1 : ℕ) * x) θ := hθ ▸ .inv_mul hx hpos' (by linarith)
  refine hfew (le_countP_of_decays hx hpos hdecays hshare hshare ?_ ?_)
  · rw [hn]
    calc 1 / 2 ≤ 1 - (n + 1) * θ + n * θ * θ := by
          rw [hshares]
          linarith [mul_nonneg hn0 hpos'.le]
      _ = (1 - θ) * (1 - n * θ) := by ring
  · -- those that are not near are far away
    have hall := @List.length_eq_countP_add_countP ℂ (‖·‖ ≤ 2 * (n + 1 : ℕ) * x) roots
    simp only [decide_eq_true_eq, not_le] at hall
    omega

/-- At least `m` roots are near, if the others are far away. -/
theorem le_countP_of_far {s : ℝ} (hs : 1 < s) (hx : 0 ≤ x)
    (hpos : 0 < ‖(withRoots lead roots).coeff m‖)
    (hdecays : Decays (withRoots lead roots) ‖(withRoots lead roots).coeff m‖ x m)
    (hfar : roots.length - m ≤
      roots.countP (fun w => 2 * s * (roots.length - m : ℕ) * x < ‖w‖)) :
    m ≤ roots.countP (fun w => ‖w‖ ≤ (2 * s - 1) / (s - 1) * x) := by
  have hs' : 0 < s - 1 := sub_pos.mpr hs
  have hs'' : 0 < 2 * s - 1 := by linarith
  have hhalf : (s - 1) / (2 * s - 1) ≤ 1 / 2 := by
    rw [div_le_div_iff₀ hs'' two_pos]
    linarith
  have hinner : Share x ((2 * s - 1) / (s - 1) * x) ((s - 1) / (2 * s - 1)) := by
    rw [← inv_div]
    exact .inv_mul hx (by positivity) (hhalf.trans_lt one_half_lt_one)
  rcases Nat.eq_zero_or_pos (roots.length - m) with hnone | hothers
  · refine le_countP_of_decays hx hpos hdecays hinner hinner ?_ ?_
    · rw [hnone, Nat.cast_zero, zero_mul, sub_zero, mul_one]
      linarith
    · rw [hnone]
      exact Nat.zero_le _
  · have hone : (1 : ℝ) ≤ (roots.length - m : ℕ) := Nat.one_le_cast.mpr hothers
    have hmany : 1 < 2 * s * (roots.length - m : ℕ) :=
      one_lt_mul_of_lt_of_le (by linarith) hone
    have houter : Share x (2 * s * (roots.length - m : ℕ) * x)
        (2 * s * (roots.length - m : ℕ))⁻¹ := by
      have h := Share.inv_mul hx (inv_pos.mpr (one_pos.trans hmany)) (inv_lt_one_of_one_lt₀ hmany)
      rwa [inv_inv] at h
    refine le_countP_of_decays hx hpos hdecays hinner houter (le_of_eq ?_) hfar
    field_simp
    ring

/-! ## The distance of a cluster -/

/-- The coefficients around a point are as small as those of roots that are
hardly more than half as far away. -/
theorem decays_of_clusterRadius {p : Dense ℝ} {z : Cplx ℝ} {radius ρ : ℝ}
    (h : clusterRadius p z m = some radius) (hρ : radius ≤ ρ) (hvisible : Visible p z m ρ) :
    Decays (around p z) ‖(around p z).coeff m‖ ((1 + 1 / (2 * 10 ^ 6)) * (ρ / 2)) m := by
  obtain ⟨hradius, -, hlower⟩ := coeff_le_of_clusterRadius h
  have hhalf : 0 ≤ ρ / 2 := by linarith
  intro k hk
  rcases hk.eq_or_lt with rfl | hk
  · simp
  have hgrow : ‖(around p z).coeff m‖ * ((1 + 1 / (2 * 10 ^ 6)) * (ρ / 2) ^ (m - k)) ≤
      ‖(around p z).coeff m‖ * ((1 + 1 / (2 * 10 ^ 6)) * (ρ / 2)) ^ (m - k) := by
    rw [mul_pow]
    gcongr
    exact le_self_pow₀ (by norm_num) (by omega)
  refine le_trans ?_ hgrow
  rcases hvisible k hk with hsmall | hlarge
  · have hpow : 0 ≤ ‖(around p z).coeff m‖ * (ρ / 2) ^ (m - k) := by positivity
    linarith
  · have hk' := hlower k hk
    have hmono : ‖(around p z).coeff m‖ * (radius / 2) ^ (m - k) ≤
        ‖(around p z).coeff m‖ * (ρ / 2) ^ (m - k) := by gcongr
    linarith

/-- **How many roots are within the distance of a cluster.**  At least `m`
are within it up to a factor for the other roots, one more than there are of
these; and at least `m` are within it as it is, if the others are far away.
The distance may be rounded up to one at which rounding hides nothing. -/
theorem clusterRadius_encloses {p : Dense ℝ} {lead : ℝ} {roots : List ℂ}
    (hp : (Dense.toPolynomial p).map (algebraMap ℝ ℂ) =
      C (lead : ℂ) * (roots.map fun r => X - C r).prod)
    {z : Cplx ℝ} {m : ℕ} {radius ρ : ℝ} (h : clusterRadius p z m = some radius)
    (hρ : radius ≤ ρ) (hvisible : Visible p z m ρ) :
    m ≤ roots.countP (fun r => dist r z.toComplex ≤
        (1 + 1 / 10 ^ 6) * ((roots.length - m + 1 : ℕ) * ρ)) ∧
      (roots.length - m ≤ roots.countP (fun r => 2 * 10 ^ 6 * ((roots.length - m : ℕ) * ρ) <
          dist r z.toComplex) →
        m ≤ roots.countP fun r => dist r z.toComplex ≤ (1 + 1 / 10 ^ 6) * ρ) := by
  have hpos := (coeff_le_of_clusterRadius h).2.1
  have hdecays := decays_of_clusterRadius h hρ hvisible
  have haround : around p z = withRoots lead (roots.map (· - z.toComplex)) := by
    rw [around, hp, ← withRoots, taylor_withRoots]
  have hcount (P : ℝ → Prop) [DecidablePred P] :
      roots.countP (fun r => P (dist r z.toComplex)) =
        (roots.map (· - z.toComplex)).countP (fun w => P ‖w‖) := by
    rw [List.countP_map]
    simp only [dist_eq_norm]
    rfl
  have hnonneg : 0 ≤ ρ := (coeff_le_of_clusterRadius h).1.trans hρ
  have hx : 0 ≤ (1 + 1 / (2 * 10 ^ 6)) * (ρ / 2) := by positivity
  have hlength : (roots.map (· - z.toComplex)).length = roots.length := List.length_map _
  rw [haround] at hpos hdecays
  constructor
  · rw [hcount (· ≤ _)]
    refine (le_countP_mul hx hpos hdecays).trans (List.countP_mono_left fun w _ hw => ?_)
    simp only [decide_eq_true_eq, hlength] at hw ⊢
    have hn : 0 ≤ (roots.length - m + 1 : ℕ) * ρ := by positivity
    linarith
  · intro hfar
    rw [hcount (_ < ·), ← hlength] at hfar
    rw [hcount (· ≤ _)]
    have hs : (1 : ℝ) < 3 / 2 * 10 ^ 6 := by norm_num
    have hn : 0 ≤ ((roots.map (· - z.toComplex)).length - m : ℕ) * ρ := by positivity
    refine (le_countP_of_far hs hx hpos hdecays (hfar.trans ?_)).trans ?_
    · refine List.countP_mono_left fun w _ hw => ?_
      simp only [decide_eq_true_eq] at hw ⊢
      linarith
    · refine List.countP_mono_left fun w _ hw => ?_
      simp only [decide_eq_true_eq] at hw ⊢
      linarith

/-- The roots one and minus one, around the origin, and one that is far
away. -/
theorem clusterRadius_encloses_pair :
    let p : Dense ℝ := [10 ^ 8, -1, -10 ^ 8, 1]
    let roots : List ℂ := [1, -1, 10 ^ 8]
    (Dense.toPolynomial p).map (algebraMap ℝ ℂ) =
        C ((1 : ℝ) : ℂ) * (roots.map fun r => X - C r).prod ∧
      ∃ radius, clusterRadius p Cplx.zero 2 = some radius ∧ radius ≤ 2 ∧
        Visible p Cplx.zero 2 2 ∧
        roots.length - 2 ≤ roots.countP (fun r => 2 * 10 ^ 6 * ((roots.length - 2 : ℕ) * 2) <
          dist r (Cplx.zero : Cplx ℝ).toComplex) ∧
        2 ≤ roots.countP fun r => dist r (Cplx.zero : Cplx ℝ).toComplex ≤ (1 + 1 / 10 ^ 6) * 2 := by
  intro p roots
  have hp : (Dense.toPolynomial p).map (algebraMap ℝ ℂ) =
      C ((1 : ℝ) : ℂ) * (roots.map fun r => X - C r).prod := by
    simp [p, roots]
    ring
  have hsmall : ∀ k < 2, ‖(around p Cplx.zero).coeff k‖ ≤
      ‖(around p Cplx.zero).coeff 2‖ * (2 / 2) ^ (2 - k) := by
    intro k hk
    interval_cases k <;> norm_num [coeff_around_zero, p]
  have hlead : allowance p Cplx.zero 2 < ‖(around p Cplx.zero).coeff 2‖ := by
    norm_num [coeff_around_zero, allowance_zero, p, roundingShare, taylorUlps, Scalar.epsilon]
  obtain ⟨radius, hle, hradius⟩ := exists_clusterRadius_le zero_le_two hlead hsmall
  have hvisible : Visible p Cplx.zero 2 2 := fun k hk => Or.inl (hsmall k hk)
  have hfar : roots.length - 2 ≤ roots.countP (fun r => 2 * 10 ^ 6 * ((roots.length - 2 : ℕ) * 2) <
      dist r (Cplx.zero : Cplx ℝ).toComplex) := by
    norm_num [roots, List.countP_cons]
  exact ⟨hp, radius, hradius, hle, hvisible, hfar,
    (clusterRadius_encloses hp hradius hle hvisible).2 hfar⟩

/-- Around the origin the sixfold root one passes for two roots within four
fifths, as the coefficients above the second are not looked at. -/
theorem clusterRadius_power_six :
    let p : Dense ℝ := [1, -6, 15, -20, 15, -6, 1]
    let roots : List ℂ := List.replicate 6 1
    (Dense.toPolynomial p).map (algebraMap ℝ ℂ) =
        C ((1 : ℝ) : ℂ) * (roots.map fun r => X - C r).prod ∧
      ∃ radius, clusterRadius p Cplx.zero 2 = some radius ∧
        ¬ 2 ≤ roots.countP fun r =>
          dist r (Cplx.zero : Cplx ℝ).toComplex ≤ (1 + 1 / 10 ^ 6) * radius := by
  intro p roots
  have hp : (Dense.toPolynomial p).map (algebraMap ℝ ℂ) =
      C ((1 : ℝ) : ℂ) * (roots.map fun r => X - C r).prod := by
    have h6 : (C 6 : ℂ[X]) = 6 := map_ofNat C 6
    have h15 : (C 15 : ℂ[X]) = 15 := map_ofNat C 15
    have h20 : (C 20 : ℂ[X]) = 20 := map_ofNat C 20
    simp [p, roots, h6, h15, h20]
    ring
  have hsmall : ∀ k < 2, ‖(around p Cplx.zero).coeff k‖ ≤
      ‖(around p Cplx.zero).coeff 2‖ * (4 / 5 / 2) ^ (2 - k) := by
    intro k hk
    interval_cases k <;> norm_num [coeff_around_zero, p]
  have hlead : allowance p Cplx.zero 2 < ‖(around p Cplx.zero).coeff 2‖ := by
    norm_num [coeff_around_zero, allowance_zero, p, roundingShare, taylorUlps, Scalar.epsilon]
  obtain ⟨radius, hle, hradius⟩ := exists_clusterRadius_le (by norm_num) hlead hsmall
  refine ⟨hp, radius, hradius, ?_⟩
  have hfar : (1 + 1 / 10 ^ 6) * radius < 1 := by linarith
  have hnone : roots.countP (fun r =>
      dist r (Cplx.zero : Cplx ℝ).toComplex ≤ (1 + 1 / 10 ^ 6) * radius) = 0 := by
    refine List.countP_eq_zero.mpr fun r hr => ?_
    rw [List.eq_of_mem_replicate hr]
    simpa using hfar
  rw [hnone]
  norm_num

end Multiplicity

end Univariate
