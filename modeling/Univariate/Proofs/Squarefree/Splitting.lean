import Univariate.Proofs.Dense.Gcd

/-!
# Splitting off the simple part of a polynomial

A monic polynomial `f` is the product of `a` and `rest`, where `rest` is
its greatest common divisor with its derivative, and the derivative is the
product of `b` and `rest`.  The difference `c = b - a'` then satisfies
`c · rest = a · rest'`: the fractions `c / a` and `rest' / rest` are equal,
and so are their reduced forms.  Dividing `a` and `c` by their greatest
common divisor is therefore splitting `rest` in the same way, without ever
computing it.

* `Squarefree.Splits` — the four polynomials;
* `Squarefree.Splits.eq_of_vanishes` — the difference vanishes: all is
  simple;
* `Squarefree.Splits.next` — otherwise `rest` is split in its turn;
* `Squarefree.Splits.squarefree` — the simple part has no repeated factor.
-/

namespace Univariate

namespace Squarefree

open Polynomial
open Univariate.Dense (IsGcd)

variable {K : Type} [Field K]

/-! ## Reduced fractions -/

/-- There is a monic greatest common divisor. -/
theorem exists_isGcd {f : K[X]} (h : K[X]) (hf : f ≠ 0) : ∃ g : K[X], g.Monic ∧ IsGcd g f h := by
  classical
  have hne : EuclideanDomain.gcd f h ≠ 0 := fun hzero =>
    hf (EuclideanDomain.gcd_eq_zero_iff.mp hzero).1
  refine ⟨EuclideanDomain.gcd f h * C (EuclideanDomain.gcd f h).leadingCoeff⁻¹,
    monic_mul_leadingCoeff_inv hne, fun d => ?_⟩
  have hlead : (EuclideanDomain.gcd f h).leadingCoeff⁻¹ ≠ 0 :=
    inv_ne_zero (leadingCoeff_ne_zero.mpr hne)
  rw [mul_comm, dvd_C_mul hlead]
  exact ⟨fun hd => ⟨hd.trans (EuclideanDomain.gcd_dvd_left f h),
    hd.trans (EuclideanDomain.gcd_dvd_right f h)⟩, fun hd => EuclideanDomain.dvd_gcd hd.1 hd.2⟩

/-- What is left after dividing by a greatest common divisor is coprime. -/
theorem isCoprime_of_isGcd {d a c : K[X]} (hd : d ≠ 0) (h : IsGcd d (a * d) (c * d)) :
    IsCoprime a c := by
  refine IsRelPrime.isCoprime fun u hua huc => ?_
  have hdvd : u * d ∣ d := (h (u * d)).mpr ⟨mul_dvd_mul_right hua d, mul_dvd_mul_right huc d⟩
  exact isUnit_of_dvd_one ((mul_dvd_mul_iff_right hd).mp (by rwa [one_mul]))

/-- **Reduced fractions are equal** if their values are and both
denominators are monic. -/
theorem eq_of_coprime {a c g h : K[X]} (ha : a.Monic) (hg : g.Monic) (hac : IsCoprime a c)
    (hgh : IsCoprime g h) (hcross : c * g = a * h) : a = g ∧ c = h := by
  have hag : a ∣ g := hac.dvd_of_dvd_mul_left ⟨h, hcross⟩
  have hga : g ∣ a := hgh.dvd_of_dvd_mul_right ⟨c, by rw [← hcross, mul_comm]⟩
  obtain rfl : a = g := eq_of_monic_of_associated ha hg (associated_of_dvd_dvd hag hga)
  refine ⟨rfl, mul_right_cancel₀ ha.ne_zero ?_⟩
  rw [hcross, mul_comm]

/-! ## Splittings -/

/-- A monic polynomial that is not constant, its greatest common divisor
with its derivative, and what is left of both once that is divided out. -/
structure Splits (f rest a b : K[X]) : Prop where
  monic : f.Monic
  nonconstant : 0 < f.natDegree
  rest_monic : rest.Monic
  simple : a * rest = f
  slope : b * rest = derivative f
  isGcd : IsGcd rest f (derivative f)

namespace Splits

variable {f rest a b : K[X]}

/-- The simple part is monic. -/
theorem monic_simple (h : Splits f rest a b) : a.Monic :=
  h.rest_monic.of_mul_monic_right (h.simple ▸ h.monic)

/-- The fractions `(b - a') / a` and `rest' / rest` are equal. -/
theorem cross (h : Splits f rest a b) :
    (b - derivative a) * rest = a * derivative rest := by
  have hproduct : derivative f = derivative a * rest + a * derivative rest := by
    rw [← h.simple, derivative_mul]
  rw [sub_mul, h.slope, hproduct, add_sub_cancel_left]

/-- **The simple part has no repeated factor**: it divides the radical,
since a polynomial without its radical divides both it and its
derivative. -/
theorem squarefree (h : Splits f rest a b) : Squarefree a := by
  classical
  have hcommon : EuclideanDomain.divRadical f ∣ rest := (h.isGcd _).mpr
    ⟨EuclideanDomain.divRadical_dvd_self f, divRadical_dvd_derivative f⟩
  obtain ⟨t, ht⟩ := hcommon
  have hradical : a * t = UniqueFactorizationMonoid.radical f := by
    refine mul_right_cancel₀ (EuclideanDomain.divRadical_ne_zero h.monic.ne_zero) ?_
    rw [EuclideanDomain.radical_mul_divRadical, mul_assoc, mul_comm t, ← ht, h.simple]
  exact UniqueFactorizationMonoid.squarefree_radical.squarefree_of_dvd ⟨t, hradical.symm⟩

/-- **The next splitting.**  Dividing `a` and the difference by their
greatest common divisor splits what was left. -/
theorem next {d a' c : K[X]} (h : Splits f rest a b) (hne : b - derivative a ≠ 0)
    (hd : d.Monic) (hgcd : IsGcd d a (b - derivative a)) (ha : a' * d = a)
    (hc : c * d = b - derivative a) : ∃ rest', Splits rest rest' a' c := by
  have hcross := h.cross
  have hrest : derivative rest ≠ 0 := by
    intro hzero
    rw [hzero, mul_zero, mul_eq_zero, or_iff_left h.rest_monic.ne_zero] at hcross
    exact hne hcross
  obtain ⟨e, he, hegcd⟩ := exists_isGcd (derivative rest) h.rest_monic.ne_zero
  obtain ⟨g, hg⟩ := hegcd.dvd_left
  obtain ⟨k, hk⟩ := hegcd.dvd_right
  rw [mul_comm] at hg hk
  have hcoprime : IsCoprime a' c := by
    refine isCoprime_of_isGcd hd.ne_zero ?_
    rwa [ha, hc]
  have hcoprime' : IsCoprime g k := by
    refine isCoprime_of_isGcd he.ne_zero ?_
    rwa [← hg, ← hk]
  have hmonic : a'.Monic := hd.of_mul_monic_right (ha ▸ h.monic_simple)
  have hmonic' : g.Monic := he.of_mul_monic_right (hg ▸ h.rest_monic)
  have hreduced : c * g = a' * k := by
    refine mul_right_cancel₀ (mul_ne_zero hd.ne_zero he.ne_zero) ?_
    calc c * g * (d * e) = (c * d) * (g * e) := by ring
      _ = (a' * d) * (k * e) := by rw [hc, ← hg, hcross, ha, ← hk]
      _ = a' * k * (d * e) := by ring
  obtain ⟨rfl, rfl⟩ := eq_of_coprime hmonic hmonic' hcoprime hcoprime' hreduced
  refine ⟨e, h.rest_monic, Nat.pos_of_ne_zero fun hzero => hrest ?_, he, hg.symm, hk.symm, hegcd⟩
  rw [h.rest_monic.natDegree_eq_zero.mp hzero, derivative_one]

variable [CharZero K]

/-- The slope of a polynomial that splits is not zero. -/
theorem derivative_ne_zero (h : Splits f rest a b) : derivative f ≠ 0 := fun hzero =>
  h.nonconstant.ne' (derivative_eq_zero.mp hzero)

/-- What is repeated has a lower degree. -/
theorem natDegree_rest_lt (h : Splits f rest a b) : rest.natDegree < f.natDegree :=
  (natDegree_le_of_dvd h.isGcd.dvd_right h.derivative_ne_zero).trans_lt
    (natDegree_derivative_lt h.nonconstant.ne')

/-- The simple part is not constant. -/
theorem nonconstant_simple (h : Splits f rest a b) : 0 < a.natDegree := by
  have hdegree := h.monic_simple.natDegree_mul h.rest_monic
  rw [h.simple] at hdegree
  have := h.natDegree_rest_lt
  omega

/-- The difference vanishes only if nothing is left to split. -/
theorem eq_of_vanishes (h : Splits f rest a b) (hvanishes : b - derivative a = 0) :
    rest = 1 ∧ a = f := by
  have hcross := h.cross
  rw [hvanishes, zero_mul, eq_comm, mul_eq_zero, or_iff_right h.monic_simple.ne_zero] at hcross
  have hrest : rest = 1 :=
    h.rest_monic.natDegree_eq_zero.mp (derivative_eq_zero.mp hcross)
  refine ⟨hrest, ?_⟩
  rw [← h.simple, hrest, mul_one]

end Splits

end Squarefree

end Univariate
