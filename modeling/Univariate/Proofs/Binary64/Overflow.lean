import Univariate.Proofs.Binary64.Nearest

/-!
# Overflow

A result is rounded to a number as long as it stays below the midpoint
between the largest number and the next power of two.

Sums and products of numbers that are at least one are at least one again,
or infinite.  Once infinite they stay infinite, so a finite result says
that everything that went into it was finite.

* `overflowThreshold`, `Nearest.isFinite_iff` — where overflow begins;
* `Large` — at least one, or infinite;
* `Large.add`, `Large.mul` — the operations stay there;
* `Large.isFinite_of_add`, `Large.isFinite_of_mul` — finite results come
  from finite numbers.
-/

namespace Univariate

namespace Binary64

open Float.Model Float.Model.UnpackedFloat

variable {x y : Float} {q : ℚ}

/-! ## Where overflow begins -/

/-- The width of the coarsest grid. -/
def coarsest : ℚ := 2 ^ maxGridExponent

/-- Half a step beyond the largest number. -/
def overflowThreshold : ℚ := (2 ^ 53 - 1 / 2) * coarsest

theorem coarsest_pos : 0 < coarsest := by
  unfold coarsest
  positivity

theorem mul_coarsest_lt {a b : ℚ} (h : a < b) : a * coarsest < b * coarsest :=
  mul_lt_mul_of_pos_right h coarsest_pos

/-- Powers of two on the coarsest grid. -/
theorem two_pow_mul_coarsest (n : ℕ) : 2 ^ n * coarsest = 2 ^ ((n : ℤ) + 971) := by
  rw [coarsest, maxGridExponent, zpow_add₀ two_ne_zero, zpow_natCast]

/-- The limit of overflow lies one bit above the mantissas on the coarsest
grid. -/
theorem two_pow_1024_eq : (2 : ℚ) ^ 1024 = 2 ^ 53 * coarsest := by
  rw [two_pow_mul_coarsest, ← zpow_natCast]
  norm_num

/-- In the last binade the grid is the coarsest. -/
theorem gridExponent_last (hlow : 2 ^ 52 * coarsest ≤ q) (hhigh : q < 2 ^ 53 * coarsest) :
    gridExponent q = maxGridExponent := by
  have hpos : 0 < q := (mul_pos (by norm_num) coarsest_pos).trans_le hlow
  rw [two_pow_mul_coarsest] at hlow hhigh
  have hle : (52 : ℕ) + 971 ≤ Int.log 2 q := by
    rw [← Int.zpow_le_iff_le_log one_lt_two hpos, Nat.cast_ofNat]
    exact hlow
  have hlt : Int.log 2 q < (53 : ℕ) + 971 := by
    rw [← Int.lt_zpow_iff_log_lt one_lt_two hpos, Nat.cast_ofNat]
    exact hhigh
  rw [gridExponent, maxGridExponent]
  omega

/-- The tie at the midpoint goes to the power of two, whose mantissa is
even. -/
theorem roundMag_overflowThreshold : roundMag overflowThreshold = 2 ^ 53 * coarsest := by
  have hpos := coarsest_pos
  have hgrid : gridExponent overflowThreshold = maxGridExponent :=
    gridExponent_last (mul_coarsest_lt (by norm_num)).le (mul_coarsest_lt (by norm_num))
  have hfloor : ⌊(2 : ℚ) ^ 53 - 1 / 2⌋₊ = 2 ^ 53 - 1 := by
    rw [Nat.floor_eq_iff (by norm_num)]
    norm_num
  have heven : nearestEven ((2 : ℚ) ^ 53 - 1 / 2) = 2 ^ 53 := by
    unfold nearestEven
    rw [hfloor]
    norm_num
  rw [roundMag, hgrid, ← coarsest, overflowThreshold, mul_div_cancel_right₀ _ hpos.ne', heven]
  norm_num

/-- **Overflow begins at the midpoint** between the largest number and the
next power of two. -/
theorem roundMag_lt_iff (hq : 0 ≤ q) : roundMag q < 2 ^ 1024 ↔ q < overflowThreshold := by
  have hpos := coarsest_pos
  rw [two_pow_1024_eq]
  constructor
  · intro h
    by_contra hge
    have hnonneg : 0 ≤ overflowThreshold := (mul_pos (by norm_num) hpos).le
    have hmono := roundMag_mono hnonneg (not_lt.mp hge)
    rw [roundMag_overflowThreshold] at hmono
    exact absurd h (not_lt.mpr hmono)
  · intro h
    rcases lt_or_ge q (2 ^ 52 * coarsest) with hsmall | hlarge
    · have hrep : Representable (2 ^ 52 * coarsest) :=
        ⟨2 ^ 52, maxGridExponent, by norm_num, by norm_num [maxGridExponent], le_rfl, by
          rw [coarsest, Int.cast_pow, Int.cast_ofNat]⟩
      have hmono := rounded_mono hsmall.le
      rw [rounded_eq hrep, rounded_of_nonneg hq] at hmono
      exact hmono.trans_lt (mul_coarsest_lt (by norm_num))
    · have hgrid : gridExponent q = maxGridExponent :=
        gridExponent_last hlarge (h.trans (mul_coarsest_lt (by norm_num)))
      have hdiv : q / coarsest < 2 ^ 53 - 1 / 2 := (div_lt_iff₀ hpos).mpr h
      have herror := (abs_le.mp (abs_sub_nearestEven_le (div_nonneg hq hpos.le))).1
      rw [roundMag, hgrid, ← coarsest]
      exact mul_coarsest_lt (by linarith)

/-- **A number overflows** exactly from the threshold on. -/
theorem abs_rounded_lt_iff (q : ℚ) : |rounded q| < 2 ^ 1024 ↔ |q| < overflowThreshold := by
  rw [abs_rounded, roundMag_lt_iff (abs_nonneg q)]

/-- A result is finite while the rational that it rounds is below the
threshold. -/
theorem Nearest.isFinite_iff (h : Nearest x q) : x.isFinite = true ↔ |q| < overflowThreshold := by
  rw [← abs_rounded_lt_iff]
  constructor
  · exact h.abs_lt_of_isFinite
  · intro hlt
    exact (Binary64.isFinite_iff x).mpr ⟨_, h.exactly hlt⟩

/-! ## Numbers that only grow -/

/-- At least one, or infinite. -/
def Large (x : Float) : Prop := x = infinity ∨ ∃ q, 1 ≤ q ∧ Exactly x q

/-- Rounding does not lead below one. -/
theorem Nearest.large (h : Nearest x q) (hq : 1 ≤ q) : Large x := by
  have hone : Representable (1 : ℚ) := by exact_mod_cast representable_int (n := 1) (by norm_num)
  have hle : 1 ≤ rounded q := by
    have hmono := rounded_mono hq
    rwa [rounded_eq hone] at hmono
  by_cases hfits : rounded q < 2 ^ 1024
  · refine Or.inr ⟨_, hle, h.exactly ?_⟩
    rwa [abs_of_pos (one_pos.trans_le hle)]
  · exact Or.inl (h.infinite (not_lt.mp hfits))

theorem isFinite_infinity : infinity.isFinite = false := rfl

/-- Unpacked, a large number has a positive sign. -/
theorem Large.unpack_cases (hx : Large x) :
    x.toModel.unpack = .infinity .positive ∨
      ∃ m e hm, x.toModel.unpack = .finite .positive m e hm := by
  rcases hx with rfl | ⟨q, hq, hx⟩
  · exact Or.inl rfl
  rcases hx.unpacks.zero_or_finite with ⟨s, -, rfl⟩ | ⟨s, m, e, hm, hunpack, hvalue⟩
  · exact absurd hq (by norm_num)
  · cases s with
    | positive => exact Or.inr ⟨m, e, hm, hunpack⟩
    | negative =>
        have hneg : q < 0 := by
          rw [hvalue, Sign.apply, Int.cast_neg, neg_mul, Int.cast_natCast, neg_lt_zero]
          positivity
        linarith

/-- Infinity absorbs what is added to it. -/
theorem infinity_add (hy : Large y) : infinity + y = infinity := by
  have hadd : infinity + y = Float.ofModel (Float.Model.pack
      (UnpackedFloat.add .binary64 (.infinity .positive) y.toModel.unpack)) := rfl
  rw [hadd]
  rcases hy.unpack_cases with hunpack | ⟨m, e, hm, hunpack⟩ <;> rw [hunpack] <;> rfl

/-- What infinity is added to becomes infinite. -/
theorem add_infinity (hx : Large x) : x + infinity = infinity := by
  have hadd : x + infinity = Float.ofModel (Float.Model.pack
      (UnpackedFloat.add .binary64 x.toModel.unpack (.infinity .positive))) := rfl
  rw [hadd]
  rcases hx.unpack_cases with hunpack | ⟨m, e, hm, hunpack⟩ <;> rw [hunpack] <;> rfl

/-- Infinity absorbs large factors. -/
theorem infinity_mul (hy : Large y) : infinity * y = infinity := by
  have hmul : infinity * y = Float.ofModel (Float.Model.pack
      (UnpackedFloat.mul .binary64 (.infinity .positive) y.toModel.unpack)) := rfl
  rw [hmul]
  rcases hy.unpack_cases with hunpack | ⟨m, e, hm, hunpack⟩ <;> rw [hunpack] <;> rfl

/-- Large factors become infinite with infinity. -/
theorem mul_infinity (hx : Large x) : x * infinity = infinity := by
  have hmul : x * infinity = Float.ofModel (Float.Model.pack
      (UnpackedFloat.mul .binary64 x.toModel.unpack (.infinity .positive))) := rfl
  rw [hmul]
  rcases hx.unpack_cases with hunpack | ⟨m, e, hm, hunpack⟩ <;> rw [hunpack] <;> rfl

/-! ## Operations -/

namespace Large

/-- **Sums of large numbers are large.** -/
theorem add (hx : Large x) (hy : Large y) : Large (x + y) := by
  rcases hx with rfl | ⟨p, hp, hx⟩
  · exact Or.inl (infinity_add hy)
  rcases hy with rfl | ⟨q, hq, hy⟩
  · exact Or.inl (add_infinity (Or.inr ⟨p, hp, hx⟩))
  · exact (hx.nearest_add hy).large (by linarith)

/-- **Products of large numbers are large.** -/
theorem mul (hx : Large x) (hy : Large y) : Large (x * y) := by
  rcases hx with rfl | ⟨p, hp, hx⟩
  · exact Or.inl (infinity_mul hy)
  rcases hy with rfl | ⟨q, hq, hy⟩
  · exact Or.inl (mul_infinity (Or.inr ⟨p, hp, hx⟩))
  · exact (hx.nearest_mul hy).large (one_le_mul_of_one_le_of_one_le hp hq)

/-- What keeps a finite result from an infinite operand. -/
theorem isFinite_of_absorbs {op : Float → Float → Float} (hx : Large x) (hy : Large y)
    (hleft : ∀ {y}, Large y → op infinity y = infinity)
    (hright : ∀ {x}, Large x → op x infinity = infinity)
    (h : (op x y).isFinite = true) : x.isFinite = true ∧ y.isFinite = true := by
  constructor
  · rcases hx with rfl | ⟨p, hp, hx⟩
    · rw [hleft hy, isFinite_infinity] at h
      cases h
    · exact (isFinite_iff x).mpr ⟨p, hx⟩
  · rcases hy with rfl | ⟨q, hq, hy⟩
    · rw [hright hx, isFinite_infinity] at h
      cases h
    · exact (isFinite_iff y).mpr ⟨q, hy⟩

/-- A finite sum of large numbers has finite summands. -/
theorem isFinite_of_add (hx : Large x) (hy : Large y) (h : (x + y).isFinite = true) :
    x.isFinite = true ∧ y.isFinite = true :=
  hx.isFinite_of_absorbs hy infinity_add add_infinity h

/-- A finite product of large numbers has finite factors. -/
theorem isFinite_of_mul (hx : Large x) (hy : Large y) (h : (x * y).isFinite = true) :
    x.isFinite = true ∧ y.isFinite = true :=
  hx.isFinite_of_absorbs hy infinity_mul mul_infinity h

end Large

end Binary64

end Univariate
