import Univariate.Proofs.Binary64.Distance
import Univariate.Proofs.Binary64.Order
import Univariate.Proofs.Expansion.Exact
import Univariate.Proofs.Roots.Clustering

/-!
# Clustering candidates of integer roots

Candidates that approximate integers well enough are put together as they
should be: those of one integer are within the tolerance of each other, and
those of different integers are not, also after the rounding of their
distance.

* `Exactly.hypot` — a distance along the real axis is not rounded again;
* `Near`, `weight` — candidates for an integer, and how often it is one;
* `Separates` — how closely integers have to be approximated to be told
  apart;
* `Separates.isNear_iff` — and that they are.
-/

namespace Univariate

open Binary64

/-! ## The length of a real difference -/

namespace Binary64

variable {x y : Float} {p q : ℚ}

theorem Exactly.isInf (hx : Exactly x p) : x.isInf = false := by
  have hdef : x.isInf = x.toModel.unpack.isInf := rfl
  rw [hdef]
  rcases hx.unpacks.zero_or_finite with ⟨s, hs, -⟩ | ⟨s, m, e, hm, hs, -⟩ <;> rw [hs] <;> rfl

/-- Zero divided by a number is zero. -/
theorem Exactly.zero_div (hx : Exactly x 0) (hy : Exactly y q) (hq : q ≠ 0) :
    Exactly (x / y) 0 := by
  have hquotient : Nearest (x / y) 0 := by simpa using hx.nearest_div hy hq
  exact hquotient.exactly_of_representable hx.representable

theorem sqrt_one : (1 : Float).sqrt = 1 := by decide +kernel

/-- Along one axis the hypotenuse is the longer side. -/
theorem Exactly.hypot (hx : Exactly x p) (hy : Exactly y 0) : Exactly (hypot x y) |p| := by
  have ha := hx.abs
  have hb := hy.abs
  rw [abs_zero] at hb
  have hlt : ¬ x.abs < y.abs := by
    intro h
    exact absurd ((ha.lt_iff hb).mp h) (not_lt.mpr (abs_nonneg p))
  unfold Binary64.hypot
  simp only [ha.isInf, hb.isInf, ha.isNaN, hb.isNaN, Bool.or_self, Bool.false_eq_true, if_false,
    if_neg hlt]
  have htest : (x.abs == 0) = true ↔ |p| = 0 := ha.beq_iff exactly_zero
  by_cases hp : |p| = 0
  · rw [if_pos (htest.mpr hp), hp]
    exact exactly_zero
  · rw [if_neg (mt htest.mp hp)]
    have hratio := hb.zero_div ha hp
    have hsquare := hratio.mul hratio (by rw [mul_zero]; exact exactly_zero.representable)
    have hsum := exactly_one.add hsquare
      (by rw [mul_zero, add_zero]; exact exactly_one.representable)
    rw [mul_zero, add_zero] at hsum
    have hroot : (1 + y.abs / x.abs * (y.abs / x.abs)).sqrt = 1 := by
      rw [hsum.eq_of_ne_zero exactly_one one_ne_zero, sqrt_one]
    have hlong := ha.mul exactly_one (by rw [mul_one]; exact ha.representable)
    rw [mul_one] at hlong
    rwa [hroot]

end Binary64

/-! ## Approximations of integers -/

/-- The real part is within `δ` of an integer. -/
def Near (δ : ℚ) (z : Cplx Float) (r : ℤ) : Prop := ∃ v, Exactly z.re v ∧ |v - r| ≤ δ

instance (δ : ℚ) (z : Cplx Float) (r : ℤ) : Decidable (Near δ z r) :=
  decidable_of_iff (∃ v ∈ rat? z.re.toModel.unpack, |v - r| ≤ δ) Iff.rfl

/-- The multiplicities of the roots near an integer, summed. -/
def weight (δ : ℚ) (r : ℤ) (roots : List (Root Float)) : ℕ :=
  (roots.map fun c => if Near δ c.value r then c.multiplicity else 0).sum

/-- How closely candidates have to approximate some integers to be told
apart: a tolerance `e` covers the candidates of one integer, and falls
short of the distance of those of two.  The approximation `δ` is none, or
is at least one rounding error. -/
structure Separates (δ e : ℚ) (rs : List ℤ) : Prop where
  exact_or : δ = 0 ∨ 2 ^ (-52 : ℤ) ≤ δ
  covers : 2 * δ ≤ e
  apart : ∀ r ∈ rs, ∀ s ∈ rs, r ≠ s → e + 2 * δ < |(r : ℚ) - s| * (1 - δ)

/-- The integers lie in an interval short enough for their differences to
be exact. -/
def Spans (rs : List ℤ) : Prop := ∀ r ∈ rs, ∀ s ∈ rs, |(r : ℚ) - s| ≤ 2 ^ 53

variable {δ e : ℚ} {rs : List ℤ} {ε : Float} {w z : Cplx Float} {r s : ℤ}

/-- **Differences of integers within `2⁵³` are exact.** -/
theorem representable_difference (h : |(r : ℚ) - s| ≤ 2 ^ 53) : Representable ((r : ℚ) - s) := by
  have hint : |r - s| ≤ 2 ^ 53 := by exact_mod_cast h
  rcases lt_or_eq_of_le hint with hlt | heq
  · exact_mod_cast representable_int hlt
  · rcases (abs_eq (by norm_num)).mp heq with hpos | hneg
    · refine ⟨2 ^ 52, 1, by norm_num, by norm_num, by norm_num [maxGridExponent], ?_⟩
      rw [← Int.cast_sub, hpos]
      norm_num
    · refine ⟨-2 ^ 52, 1, by norm_num, by norm_num, by norm_num [maxGridExponent], ?_⟩
      rw [← Int.cast_sub, hneg]
      norm_num

/-- Two integers are at least one apart. -/
theorem one_le_abs_sub (hne : r ≠ s) : 1 ≤ |(r : ℚ) - s| := by
  exact_mod_cast Int.one_le_abs (sub_ne_zero.mpr hne)

/-- Approximations are as far apart as the integers, up to their errors. -/
theorem abs_abs_sub_le {v u : ℚ} (hv : |v - r| ≤ δ) (hu : |u - s| ≤ δ) :
    |(r : ℚ) - s| - 2 * δ ≤ |v - u| ∧ |v - u| ≤ |(r : ℚ) - s| + 2 * δ := by
  have hclose : |(v - u) - (r - s)| ≤ 2 * δ := by
    rw [show (v - u) - ((r : ℚ) - s) = (v - r) - (u - s) by ring]
    exact (abs_sub _ _).trans (by linarith)
  have hlow := (abs_abs_sub_abs_le (v - u) ((r : ℚ) - s)).trans hclose
  obtain ⟨hlow, hhigh⟩ := abs_le.mp hlow
  constructor <;> linarith

/-- The distance of candidates on the real axis is rounded once. -/
theorem isNear_iff_rounded (hε : Exactly ε e) {v u : ℚ} (hv : Exactly w.re v) (hu : Exactly z.re u)
    (hw0 : w.im = Scalar.zero) (hz0 : z.im = Scalar.zero) (hfits : |rounded (v - u)| < 2 ^ 1024) :
    Cluster.isNear ε w z = true ↔ |rounded (v - u)| ≤ e := by
  have him : Exactly (w.im - z.im) 0 := by
    rw [hw0, hz0]
    have hsub := exactly_scalar_zero.nearest_sub exactly_scalar_zero
    rw [sub_zero] at hsub
    exact hsub.exactly_of_representable exactly_scalar_zero.representable
  exact (((hv.nearest_sub hu).exactly hfits).hypot him).le_iff hε

/-- Rounding does not lift a magnitude over a number. -/
theorem abs_rounded_le {q b : ℚ} (hb : Representable b) (hle : |q| ≤ b) : |rounded q| ≤ b := by
  rw [abs_rounded, ← rounded_of_nonneg (abs_nonneg _)]
  exact (rounded_mono hle).trans (rounded_eq hb).le

namespace Separates

/-- Approximations are off by some distance or none. -/
theorem nonneg (h : Separates δ e rs) : 0 ≤ δ := by
  rcases h.exact_or with rfl | hδ
  · exact le_rfl
  · exact le_trans (by positivity) hδ

/-- If there are two integers to tell apart, approximations are off by less
than one. -/
theorem lt_one (h : Separates δ e rs) (hr : r ∈ rs) (hs : s ∈ rs) (hne : r ≠ s) : δ < 1 := by
  by_contra hge
  have hδ := h.nonneg
  have hcovers := h.covers
  have hpos : |(r : ℚ) - s| * (1 - δ) ≤ 0 :=
    mul_nonpos_of_nonneg_of_nonpos (abs_nonneg _) (by linarith)
  have hapart := h.apart r hr s hs hne
  linarith

/-- The distance of candidates for two integers, also after rounding. -/
theorem lt_abs_rounded (h : Separates δ e rs) (hspans : Spans rs) (hr : r ∈ rs) (hs : s ∈ rs)
    (hne : r ≠ s) {v u : ℚ}
    (hv : |v - r| ≤ δ) (hu : |u - s| ≤ δ) : e < |rounded (v - u)| := by
  have hapart := h.apart r hr s hs hne
  rcases h.exact_or with rfl | hδ
  · -- A difference of integers is not rounded.
    obtain rfl : v = r := by linarith [abs_nonpos_iff.mp hv]
    obtain rfl : u = s := by linarith [abs_nonpos_iff.mp hu]
    rw [rounded_eq (representable_difference (hspans r hr s hs))]
    linarith
  · obtain ⟨hlow, hhigh⟩ := abs_abs_sub_le hv hu
    have hone := one_le_abs_sub hne
    set gap := |(r : ℚ) - s| with hgap
    have hmargin : 2 ^ (-52 : ℤ) * gap ≤ δ * gap := by gcongr
    have hmargin' : δ ≤ δ * gap := le_mul_of_one_le_right h.nonneg hone
    have herror := (abs_abs_sub_abs_le (v - u) (rounded (v - u))).trans
      (abs_sub_rounded_le_add (v - u))
    obtain ⟨-, herror⟩ := abs_le.mp herror
    have hδ1 := h.lt_one hr hs hne
    norm_num at *
    linarith

/-- A candidate is near one of the integers only. -/
theorem unique (h : Separates δ e rs) (hr : r ∈ rs) (hs : s ∈ rs) (hz : Near δ z r)
    (hz' : Near δ z s) : r = s := by
  by_contra hne
  obtain ⟨v, hv, hvr⟩ := hz
  obtain ⟨u, hu, hus⟩ := hz'
  obtain rfl := hv.unique hu
  have hlow := (abs_abs_sub_le hvr hus).1
  rw [sub_self, abs_zero] at hlow
  have hδ := h.nonneg
  have hcovers := h.covers
  have hapart := h.apart r hr s hs hne
  have hle : |(r : ℚ) - s| * (1 - δ) ≤ |(r : ℚ) - s| :=
    mul_le_of_le_one_right (abs_nonneg _) (by linarith)
  linarith

/-- **Candidates are near each other exactly if they are near the same
integer.** -/
theorem isNear_iff (h : Separates δ e rs) (hspans : Spans rs) (hε : Exactly ε e) (hr : r ∈ rs)
    (hs : s ∈ rs) (hw : Near δ w r) (hz : Near δ z s) (hw0 : w.im = Scalar.zero)
    (hz0 : z.im = Scalar.zero) : Cluster.isNear ε w z = true ↔ r = s := by
  obtain ⟨v, hv, hvr⟩ := hw
  obtain ⟨u, hu, hus⟩ := hz
  obtain ⟨-, hhigh⟩ := abs_abs_sub_le hvr hus
  by_cases heq : r = s
  · subst heq
    have hle : |rounded (v - u)| ≤ e := by
      refine abs_rounded_le hε.representable (hhigh.trans ?_)
      rw [sub_self, abs_zero, zero_add]
      exact h.covers
    have hfits := hle.trans_lt ((le_abs_self e).trans_lt hε.representable.abs_lt)
    rw [isNear_iff_rounded hε hv hu hw0 hz0 hfits]
    exact iff_of_true hle rfl
  · have hbig : Representable ((2 : ℚ) ^ 54) :=
      ⟨1, 54, by norm_num, by norm_num, by norm_num [maxGridExponent], by norm_num⟩
    have hle : |rounded (v - u)| ≤ 2 ^ 54 := by
      refine abs_rounded_le hbig (hhigh.trans ?_)
      linarith [hspans r hr s hs, h.lt_one hr hs heq]
    have hfits := hle.trans_lt (pow_lt_pow_right₀ one_lt_two (by norm_num : 54 < 1024))
    rw [isNear_iff_rounded hε hv hu hw0 hz0 hfits]
    exact iff_of_false (not_le.mpr (h.lt_abs_rounded hspans hr hs heq hvr hus)) heq

end Separates

end Univariate
