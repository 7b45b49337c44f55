import Univariate.Proofs.Exact.Reals
import Univariate.Roots.Iteration

/-!
# The root iteration on a multiple of a polynomial

A polynomial and its derivative at a point both grow with a factor that all
coefficients are multiplied with; the Newton correction is their quotient
and does not.  Neither do the starting points, which depend on quotients of
coefficients, nor the acceptance of a residual, whose bound grows as the
residual does.  So every sweep moves the same points in the same way, and
by induction so do all of them.

* `Dense.scaled` — all coefficients times a factor;
* `Roots.hornerPair_scaled` — the values grow with the factor;
* `Roots.correction_scaled` — the step of one approximation;
* `Roots.iterate_scaled` — the sweeps, and how they end;
* `Roots.find_scaled` — the roots.
-/

namespace Univariate

namespace Dense

open scoped Exact

variable {α : Type} [Field α]

/-- All coefficients times a factor. -/
def scaled (k : α) (p : Dense α) : Dense α := p.map (k * ·)

@[simp] theorem scaled_nil (k : α) : scaled k [] = [] := rfl

@[simp] theorem scaled_cons (k c : α) (p : Dense α) : scaled k (c :: p) = k * c :: scaled k p := rfl

@[simp] theorem length_scaled (k : α) (p : Dense α) : (scaled k p).length = p.length :=
  List.length_map _

@[simp] theorem degree_scaled (k : α) (p : Dense α) : (scaled k p).degree = p.degree := by
  rw [degree, length_scaled, degree]

theorem reverse_scaled (k : α) (p : Dense α) : (scaled k p).reverse = scaled k p.reverse :=
  List.map_reverse.symm

end Dense

namespace Roots

open Univariate.Dense (scaled)
open scoped Exact

variable {k : ℝ}

/-! ## Values -/

/-- **The values grow with the factor.** -/
theorem hornerPair_scaled (k : ℝ) (z : Cplx ℝ) (p : Dense ℝ) :
    hornerPair z (scaled k p) = ((hornerPair z p).1.scale k, (hornerPair z p).2.scale k) := by
  induction p with
  | nil => simp [hornerPair, Exact.zero_scale]
  | cons c p ih =>
      rw [Dense.scaled_cons, hornerPair, ih]
      dsimp only
      rw [Exact.scale_mul, Exact.scale_mul, Exact.scale_addReal, Exact.scale_add, hornerPair]

/-- The magnitude is scaled by an absolute value. -/
theorem magnitudeAt_scaled (k r : ℝ) (p : Dense ℝ) :
    magnitudeAt r (scaled k p) = |k| * magnitudeAt r p := by
  induction p with
  | nil => simp [magnitudeAt]
  | cons c p ih =>
      rw [Dense.scaled_cons, magnitudeAt, ih, magnitudeAt, Exact.abs_eq, Exact.abs_eq, abs_mul]
      ring

/-- **A residual is small relative to the magnitude**, at any scale. -/
theorem isResidualSmall_scaled (hk : k ≠ 0) (p : Dense ℝ) :
    isResidualSmall (scaled k p) = isResidualSmall p := by
  funext z
  have hpositive : 0 < |k| := abs_pos.mpr hk
  rw [isResidualSmall, hornerPair_scaled, magnitudeAt_scaled, Exact.norm_scale, isResidualSmall,
    Exact.le_eq, Exact.le_eq, mul_left_comm, decide_eq_decide, mul_le_mul_iff_right₀ hpositive]

/-! ## Steps -/

/-- **The step of one approximation** does not depend on the factor. -/
theorem correction_scaled (hk : k ≠ 0) (p : Dense ℝ) (z : Cplx ℝ) (others : List (Cplx ℝ)) :
    correction (scaled k p) z others = correction p z others := by
  have hvanishes (w : Cplx ℝ) :
      Scalar.eq (w.scale k).norm Scalar.zero = Scalar.eq w.norm Scalar.zero := by
    rw [Exact.eq_eq, Exact.eq_eq, Exact.zero_eq, decide_eq_decide,
      Exact.norm_scale_eq_zero_iff hk]
  rw [correction, hornerPair_scaled, correction]
  dsimp only
  rw [Exact.scale_div_scale hk, hvanishes]

/-- One sweep moves all points alike, as it only takes quotients. -/
theorem sweep_scaled (hk : k ≠ 0) (p : Dense ℝ) (moved : List (Cplx ℝ)) (largest : ℝ)
    (waiting : List (Cplx ℝ)) :
    sweep (scaled k p) moved largest waiting = sweep p moved largest waiting := by
  induction waiting generalizing moved largest with
  | nil => rfl
  | cons z waiting ih =>
      rw [sweep, correction_scaled hk, sweep]
      cases correction p z (moved ++ waiting) with
      | none => exact ih _ _
      | some step => exact ih _ _

/-- **The sweeps** move the same points, and end in the same way. -/
theorem iterate_scaled (hk : k ≠ 0) (p : Dense ℝ) (iterations : ℕ) (roots : List (Cplx ℝ)) :
    iterate (scaled k p) iterations roots = iterate p iterations roots := by
  induction iterations generalizing roots with
  | zero => rfl
  | succ iterations ih =>
      rw [iterate, sweep_scaled hk, iterate]
      simp only [ih]

/-! ## Starting points -/

/-- The radius depends on quotients of coefficients. -/
theorem startRadius_scaled (hk : k ≠ 0) (p : Dense ℝ) :
    startRadius (scaled k p) = startRadius p := by
  rw [startRadius, Dense.reverse_scaled, startRadius]
  cases p.reverse with
  | nil => rfl
  | cons lead lower =>
      dsimp only [Dense.scaled_cons]
      rw [scaled, List.zipIdx_map, List.foldl_map]
      simp only [Prod.map_fst, Prod.map_snd, id_eq, mul_div_mul_left _ _ hk]

/-- The points to start from do not depend on the scale. -/
theorem startPoints_scaled (hk : k ≠ 0) (p : Dense ℝ) :
    startPoints (scaled k p) = startPoints p := by
  rw [startPoints, startRadius_scaled hk, Dense.degree_scaled, startPoints]

/-! ## Roots -/

/-- **The iteration comes to the same points.** -/
theorem findNonzero_scaled (hk : k ≠ 0) (p : Dense ℝ) (iterations : ℕ) :
    findNonzero (scaled k p) iterations = findNonzero p iterations := by
  match p with
  | [] => rfl
  | [_] => rfl
  | [constant, slope] =>
      simp only [Dense.scaled_cons, Dense.scaled_nil, findNonzero, ← mul_neg,
        mul_div_mul_left _ _ hk]
  | a :: b :: c :: p =>
      have hall : scaled k (a :: b :: c :: p) = k * a :: k * b :: k * c :: scaled k p := rfl
      rw [hall, findNonzero, ← hall, iterate_scaled hk, startPoints_scaled hk,
        isResidualSmall_scaled hk, Dense.degree_scaled, findNonzero]
      all_goals simp

/-- **The roots of a multiple** are those of the polynomial, those at zero
among them. -/
theorem find_scaled (hk : k ≠ 0) (p : Dense ℝ) (iterations : ℕ) :
    find (scaled k p) iterations = find p iterations := by
  have hzero : ((fun c : ℝ => Scalar.eq c Scalar.zero) ∘ (k * ·)) =
      fun c : ℝ => Scalar.eq c Scalar.zero := by
    funext c
    simp [hk]
  have hnonzero := findNonzero_scaled hk
    (p.dropWhile fun c => Scalar.eq c Scalar.zero) iterations
  rw [scaled] at hnonzero
  rw [find, scaled, List.takeWhile_map, List.dropWhile_map, hzero, List.map_map, hnonzero]
  rfl

end Roots

end Univariate
