import Univariate.Proofs.Binary64.Overflow
import Univariate.Proofs.Binary64.Signs

/-!
# Distances between numbers

A difference is rounded, may overflow, and may be no number at all.  Its
magnitude still behaves like a distance: it is the same in both directions,
and between finite numbers it is zero only if they are equal, since what
they differ by is a multiple of the smallest number.

* `sub_abs_comm`, `max_abs_comm` — nothing depends on the order of
  two numbers;
* `rounded_sub_eq_zero_iff`, `abs_sub_le_zero_iff` — no difference is lost;
* `beq_self`, `isNaN_add` — what equals itself, and that finite terms never
  add up to what does not.
-/

namespace Univariate

namespace Binary64

open Float.Model Float.Model.UnpackedFloat

variable {x y z : Float} {p q : ℚ}

/-! ## Values that are no number -/

theorem isNaN_eq (x : Float) : x.isNaN = x.toModel.unpack.isNaN := rfl

/-- What stands for a number is one. -/
theorem Exactly.isNaN (hx : Exactly x p) : x.isNaN = false := by
  rw [isNaN_eq]
  rcases hx.unpacks.zero_or_finite with ⟨s, hs, -⟩ | ⟨s, m, e, hm, hs, -⟩ <;> rw [hs] <;> rfl

/-- A rounded rational is a number, or infinite. -/
theorem Nearest.isNaN (h : Nearest x q) : x.isNaN = false := by
  by_cases hfits : |rounded q| < 2 ^ 1024
  · exact (h.exactly hfits).isNaN
  · obtain ⟨s, rfl, -⟩ := h.overflows (not_lt.mp hfits)
    cases s <;> rfl

/-- **A finite term** does not turn a sum into what is no number. -/
theorem isNaN_add (hx : x.isNaN = false) (hy : y.isFinite = true) : (x + y).isNaN = false := by
  obtain ⟨q, hq⟩ := (isFinite_iff y).mp hy
  by_cases hfinite : x.isFinite = true
  · obtain ⟨p, hp⟩ := (isFinite_iff x).mp hfinite
    exact (hp.nearest_add hq).isNaN
  · have hadd : x + y = Float.ofModel (Float.Model.pack
        (UnpackedFloat.add .binary64 x.toModel.unpack y.toModel.unpack)) := rfl
    rcases unpack_of_not_finite hfinite with hunpack | ⟨s, hunpack⟩
    · rw [isNaN_eq, hunpack] at hx
      cases hx
    · have hsum : UnpackedFloat.add .binary64 (.infinity s) y.toModel.unpack = .infinity s := by
        rcases hq.unpacks.zero_or_finite with ⟨t, ht, -⟩ | ⟨t, m, e, hm, ht, -⟩ <;> rw [ht] <;> rfl
      rw [hadd, hunpack, hsum]
      cases s <;> rfl

/-- Everything equals itself but what is no number. -/
theorem beq_self (x : Float) : Float.beq x x = !x.isNaN := by
  by_cases hfinite : x.isFinite = true
  · obtain ⟨p, hp⟩ := (isFinite_iff x).mp hfinite
    rw [hp.isNaN, (hp.beq_iff hp).mpr rfl]
    rfl
  · have hbeq : Float.beq x x = (x.toModel.unpack.compare x.toModel.unpack == some .eq) := rfl
    rw [hbeq, isNaN_eq]
    rcases unpack_of_not_finite hfinite with hx | ⟨s, hx⟩ <;> rw [hx]
    · rfl
    · cases s <;> rfl

/-- What is above anything is a number. -/
theorem isNaN_of_lt (h : Float.lt z x.abs = true) : x.isNaN = false := by
  have hlt : Float.lt z x.abs = (z.toModel.unpack.compare x.abs.toModel.unpack == some .lt) :=
    Bool.decide_coe _
  by_contra hnan
  rw [Bool.not_eq_false, isNaN_eq] at hnan
  cases hx : x.toModel.unpack with
  | notANumber =>
      have habs : x.abs = Float.ofModel (Float.Model.pack x.toModel.unpack.abs) := rfl
      rw [hlt, habs, hx] at h
      cases hz : z.toModel.unpack <;> rw [hz] at h <;> cases h
  | infinity s | zero s | finite s m e hm =>
      rw [hx] at hnan
      cases hnan

/-! ## The order of two numbers -/

/-- Magnitudes of equal size are the same number. -/
theorem Exactly.abs_eq_abs (hx : Exactly x p) (hy : Exactly y q) (h : |p| = |q|) :
    x.abs = y.abs := by
  by_cases hzero : |p| = 0
  · have hp := abs_eq_zero.mp hzero
    have hq := abs_eq_zero.mp (h ▸ hzero)
    have habs (x : Float) : x.abs = Float.ofModel (Float.Model.pack x.toModel.unpack.abs) := rfl
    have hunpack {x : Float} (hx : Exactly x 0) : x.toModel.unpack.abs = .zero .positive := by
      rcases hx.unpacks.zero_or_finite with ⟨s, hs, -⟩ | ⟨s, m, e, hm, -, hvalue⟩
      · rw [hs]
        rfl
      · have hpos : (0 : ℚ) < m * 2 ^ e := by positivity
        cases s <;> simp only [Sign.apply, Int.cast_neg, Int.cast_natCast, neg_mul] at hvalue <;>
          linarith
    rw [habs x, habs y, hunpack (hp ▸ hx), hunpack (hq ▸ hy)]
  · exact hx.abs.eq_of_ne_zero (h ▸ hy.abs) hzero

/-- A difference by the fields of its two numbers. -/
theorem sub_eq (x y : Float) : x - y = Float.ofModel (Float.Model.pack
    (UnpackedFloat.sub .binary64 x.toModel.unpack y.toModel.unpack)) := rfl

/-- With a value that is not finite, a difference is infinite or no number,
in both directions. -/
theorem sub_cases_of_not_finite {u : UnpackedFloat} (hu : u = .notANumber ∨ ∃ s, u = .infinity s)
    (v : UnpackedFloat) :
    (UnpackedFloat.sub .binary64 u v = .notANumber ∧
        UnpackedFloat.sub .binary64 v u = .notANumber) ∨
      ∃ s t, UnpackedFloat.sub .binary64 u v = .infinity s ∧
        UnpackedFloat.sub .binary64 v u = .infinity t := by
  rcases hu with rfl | ⟨s, rfl⟩
  · exact Or.inl ⟨rfl, by cases v <;> rfl⟩
  · cases v with
    | notANumber => exact Or.inl ⟨rfl, rfl⟩
    | infinity t =>
        cases s <;> cases t
        · exact Or.inl ⟨rfl, rfl⟩
        · exact Or.inr ⟨_, _, rfl, rfl⟩
        · exact Or.inr ⟨_, _, rfl, rfl⟩
        · exact Or.inl ⟨rfl, rfl⟩
    | zero t | finite t m e hm => exact Or.inr ⟨_, _, rfl, rfl⟩

/-- The magnitude of a difference does not depend on the order either where
the first number is infinite or none. -/
theorem abs_sub_comm_of_not_finite (hx : ¬x.isFinite = true) (y : Float) :
    (x - y).abs = (y - x).abs := by
  rw [sub_eq, sub_eq]
  rcases sub_cases_of_not_finite (unpack_of_not_finite hx) y.toModel.unpack with
    ⟨hxy, hyx⟩ | ⟨s, t, hxy, hyx⟩
  · rw [hxy, hyx]
  · rw [hxy, hyx]
    cases s <;> cases t <;> rfl

/-- **A distance is the same in both directions.** -/
theorem sub_abs_comm (x y : Float) : (x - y).abs = (y - x).abs := by
  by_cases hx : x.isFinite = true
  · by_cases hy : y.isFinite = true
    · obtain ⟨p, hp⟩ := (isFinite_iff x).mp hx
      obtain ⟨q, hq⟩ := (isFinite_iff y).mp hy
      have hxy := hp.nearest_sub hq
      have hyx := hq.nearest_sub hp
      have habs : |rounded (p - q)| = |rounded (q - p)| := by
        rw [← neg_sub q p, rounded_neg, abs_neg]
      by_cases hfits : |rounded (p - q)| < 2 ^ 1024
      · exact (hxy.exactly hfits).abs_eq_abs (hyx.exactly (habs ▸ hfits)) habs
      · obtain ⟨s, hs, -⟩ := hxy.overflows (not_lt.mp hfits)
        obtain ⟨t, ht, -⟩ := hyx.overflows (habs ▸ not_lt.mp hfits)
        rw [hs, ht]
        cases s <;> cases t <;> rfl
    · exact (abs_sub_comm_of_not_finite hy x).symm
  · exact abs_sub_comm_of_not_finite hx y

/-- A magnitude is no number, or infinite, or that of a finite number. -/
theorem unpack_abs_cases (x : Float) : x.abs = nan ∨ x.abs = infinity ∨ x.isFinite = true := by
  by_cases hfinite : x.isFinite = true
  · exact Or.inr (Or.inr hfinite)
  · have habs : x.abs = Float.ofModel (Float.Model.pack x.toModel.unpack.abs) := rfl
    rw [habs]
    rcases unpack_of_not_finite hfinite with hx | ⟨s, hx⟩ <;> rw [hx]
    · exact Or.inl rfl
    · exact Or.inr (Or.inl rfl)

/-- Nothing lies below what is no number. -/
theorem lt_nan (x : Float) : Float.lt x nan = false := by
  have hlt : Float.lt x nan = (x.toModel.unpack.compare .notANumber == some .lt) :=
    Bool.decide_coe _
  rw [hlt]
  cases x.toModel.unpack <;> rfl

/-- Nothing lies above infinity. -/
theorem infinity_lt (x : Float) : Float.lt infinity x = false := by
  have hlt : Float.lt infinity x =
      (UnpackedFloat.compare (.infinity .positive) x.toModel.unpack == some .lt) :=
    Bool.decide_coe _
  rw [hlt]
  cases x.toModel.unpack with
  | infinity s => cases s <;> rfl
  | notANumber | zero s | finite s m e hm => rfl

/-- Every number lies below infinity. -/
theorem Exactly.lt_infinity (hx : Exactly x p) : Float.lt x infinity = true := by
  have hlt : Float.lt x infinity =
      (x.toModel.unpack.compare (.infinity .positive) == some .lt) :=
    Bool.decide_coe _
  rw [hlt]
  rcases hx.unpacks.zero_or_finite with ⟨s, hs, -⟩ | ⟨s, m, e, hm, hs, -⟩ <;> rw [hs] <;> rfl

/-- The larger of two by the two comparisons that it makes. -/
theorem max_eq (x y : Float) :
    Scalar.max x y = if Float.lt x y || !Float.beq x x then y else x := rfl

/-- What is no number gives way to the other value. -/
theorem nan_max (x : Float) : Scalar.max nan x = x := by
  have hself : Float.beq nan nan = false := rfl
  rw [max_eq, hself, Bool.not_false, Bool.or_true, if_pos rfl]

/-- What is no number is passed over in second place. -/
theorem max_nan (hx : x.isNaN = false) : Scalar.max x nan = x := by
  rw [max_eq, lt_nan, beq_self, hx]
  rfl

/-- Infinity prevails. -/
theorem infinity_max (x : Float) : Scalar.max infinity x = infinity := by
  have hself : Float.beq infinity infinity = true := rfl
  rw [max_eq, infinity_lt, hself]
  rfl

/-- Infinity is the larger one in second place. -/
theorem Exactly.max_infinity (hx : Exactly x p) : Scalar.max x infinity = infinity := by
  rw [max_eq, hx.lt_infinity, Bool.true_or, if_pos rfl]

/-- The larger of two magnitudes does not depend on the order either where the
first is infinite or none. -/
theorem max_abs_comm_of_not_finite (hx : x.abs = nan ∨ x.abs = infinity) (y : Float) :
    Scalar.max x.abs y.abs = Scalar.max y.abs x.abs := by
  rcases hx with hx | hx <;> rw [hx] <;> rcases unpack_abs_cases y with hy | hy | hy
  · rw [hy]
  · rw [hy, nan_max, infinity_max]
  · obtain ⟨q, hq⟩ := (isFinite_iff y).mp hy
    rw [nan_max, max_nan hq.abs.isNaN]
  · rw [hy, nan_max, infinity_max]
  · rw [hy]
  · obtain ⟨q, hq⟩ := (isFinite_iff y).mp hy
    rw [infinity_max, hq.abs.max_infinity]

/-- **The larger magnitude** of two values does not depend on their order. -/
theorem max_abs_comm (x y : Float) : Scalar.max x.abs y.abs = Scalar.max y.abs x.abs := by
  rcases unpack_abs_cases x with hx | hx | hx
  · exact max_abs_comm_of_not_finite (Or.inl hx) y
  · exact max_abs_comm_of_not_finite (Or.inr hx) y
  rcases unpack_abs_cases y with hy | hy | hy
  · exact (max_abs_comm_of_not_finite (Or.inl hy) x).symm
  · exact (max_abs_comm_of_not_finite (Or.inr hy) x).symm
  obtain ⟨p, hp⟩ := (isFinite_iff x).mp hx
  obtain ⟨q, hq⟩ := (isFinite_iff y).mp hy
  rw [max_eq, max_eq, beq_self, beq_self, hp.abs.isNaN, hq.abs.isNaN, Bool.not_false,
    Bool.not_true, Bool.or_false, Bool.or_false]
  simp only [hp.abs.lt_iff hq.abs, hq.abs.lt_iff hp.abs]
  rcases lt_trichotomy |p| |q| with h | h | h
  · rw [if_pos h, if_neg h.not_gt]
  · rw [hp.abs_eq_abs hq h, ite_self, ite_self]
  · rw [if_neg h.not_gt, if_pos h]

/-! ## Differences that vanish -/

/-- The smallest number above zero. -/
theorem representable_smallest : Representable (2 ^ (-1074 : ℤ)) :=
  ⟨1, -1074, by norm_num, le_rfl, by norm_num [maxGridExponent], by simp⟩

/-- Different numbers are at least as far apart as the smallest number is
from zero. -/
theorem smallest_le_abs_sub (hp : Representable p) (hq : Representable q) (hne : p ≠ q) :
    2 ^ (-1074 : ℤ) ≤ |p - q| := by
  have hmultiple {r : ℚ} (hr : Representable r) : ∃ k : ℤ, r = k * 2 ^ (-1074 : ℤ) := by
    obtain ⟨k, e, -, he, -, rfl⟩ := hr
    refine ⟨k * 2 ^ (e + 1074).toNat, ?_⟩
    have hpow : (2 : ℚ) ^ e = 2 ^ (e + 1074).toNat * 2 ^ (-1074 : ℤ) := by
      rw [← zpow_natCast, ← zpow_add₀ two_ne_zero]
      congr 1
      omega
    rw [hpow, Int.cast_mul, Int.cast_pow, Int.cast_ofNat, mul_assoc]
  obtain ⟨k, rfl⟩ := hmultiple hp
  obtain ⟨l, rfl⟩ := hmultiple hq
  have hkl : k ≠ l := fun h => hne (h ▸ rfl)
  have hone : (1 : ℚ) ≤ |(k : ℚ) - l| := by
    exact_mod_cast Int.one_le_abs (sub_ne_zero.mpr hkl)
  rw [← sub_mul, abs_mul, abs_of_pos (show (0 : ℚ) < 2 ^ (-1074 : ℤ) by positivity)]
  exact le_mul_of_one_le_left (by positivity) hone

/-- **No difference is lost** to rounding. -/
theorem rounded_sub_eq_zero_iff (hp : Representable p) (hq : Representable q) :
    rounded (p - q) = 0 ↔ p = q := by
  constructor
  · intro h
    by_contra hne
    have hsmallest : (0 : ℚ) < 2 ^ (-1074 : ℤ) := by positivity
    have hmono := rounded_mono (smallest_le_abs_sub hp hq hne)
    rw [rounded_eq representable_smallest, rounded_of_nonneg (abs_nonneg _), ← abs_rounded, h,
      abs_zero] at hmono
    exact absurd hmono (not_le.mpr hsmallest)
  · rintro rfl
    rw [sub_self, rounded_of_nonneg le_rfl, roundMag_zero]

/-- **Only equal numbers have no distance.** -/
theorem abs_sub_le_zero_iff (hx : Exactly x p) (hy : Exactly y q) (hz : Exactly z 0) :
    Float.le (x - y).abs z = true ↔ p = q := by
  have hdistance := hx.nearest_sub hy
  rw [← rounded_sub_eq_zero_iff hx.representable hy.representable]
  by_cases hfits : |rounded (p - q)| < 2 ^ 1024
  · rw [(hdistance.exactly hfits).abs.le_iff hz, abs_nonpos_iff]
  · obtain ⟨s, hs, hsign⟩ := hdistance.overflows (not_lt.mp hfits)
    refine iff_of_false ?_ fun h => by simp [h] at hsign
    have habs : (x - y).abs = infinity := by
      rw [hs]
      cases s <;> rfl
    have hle : Float.le infinity z =
        (UnpackedFloat.compare (.infinity .positive) z.toModel.unpack).any (·.isLE) :=
      Bool.decide_coe _
    rw [habs, hle]
    rcases hz.unpacks.zero_or_finite with ⟨t, ht, -⟩ | ⟨t, m, e, hm, ht, -⟩ <;> rw [ht] <;>
      exact Bool.false_ne_true

end Binary64

end Univariate
