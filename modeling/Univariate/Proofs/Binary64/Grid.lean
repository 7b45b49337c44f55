import Mathlib
import Univariate.Scalar.Float

/-!
# The grid of binary64 numbers

A finite binary64 number is an integer times a power of two.  Numbers of
one size lie on one grid, whose width `2 ^ gridExponent q` follows from the
magnitude `q` alone: fifty-two bits below the leading one, but never below
the width of the subnormal numbers.

Arithmetic on the unpacked form rounds to that grid.  What is on the grid
already is `Representable`, and a mantissa is moved there by shifting.

* `gridExponent`, `rat?`, `Canonical` — the grid, the value of an unpacked
  number, and the form that unpacking produces;
* `canonical_finite_iff` — canonical form in terms of the mantissa's bits;
* `shiftToTargetExponent_mul_two_pow` — a shift that only drops zero bits.
-/

namespace Univariate

namespace Binary64

open Float.Model Float.Model.UnpackedFloat

/-- The rational number that an unpacked number is, if it is finite. -/
def rat? : UnpackedFloat → Option ℚ
  | .zero _ => some 0
  | .finite s m e _ => some (s.apply m * 2 ^ e)
  | .infinity _ | .notANumber => none

/-- The exponent of the grid on which numbers of magnitude `q` lie. -/
def gridExponent (q : ℚ) : ℤ := max (Int.log 2 q - 52) (-1074)

/-- The largest exponent of a finite number. -/
def maxGridExponent : ℤ := 971

/-- The exponent is that of the number's own grid, and not too large. -/
def Canonical : UnpackedFloat → Prop
  | .finite _ m e _ => gridExponent (m * 2 ^ e) = e ∧ e ≤ maxGridExponent
  | _ => True

/-- An integer of at most fifty-three bits times a power of two within the
range of exponents. -/
def Representable (q : ℚ) : Prop :=
  ∃ k e : ℤ, |k| < 2 ^ 53 ∧ -1074 ≤ e ∧ e ≤ maxGridExponent ∧ q = k * 2 ^ e

/-- An unpacked number in canonical form with a given value. -/
structure Unpacks (u : UnpackedFloat) (q : ℚ) : Prop where
  value : rat? u = some q
  canonical : Canonical u

/-! ## The grid of a mantissa and an exponent -/

/-- The binary order of magnitude of a scaled integer is its number of bits,
shifted. -/
theorem log_scaled {m : ℕ} (hm : 0 < m) (e : ℤ) :
    Int.log 2 ((m : ℚ) * 2 ^ e) = m.log2 + e := by
  have hq : (0 : ℚ) < m * 2 ^ e := by positivity
  have hlow : ((2 : ℕ) : ℚ) ^ ((m.log2 : ℤ) + e) ≤ m * 2 ^ e := by
    have h : ((2 ^ m.log2 : ℕ) : ℚ) ≤ m := by exact_mod_cast Nat.log2_self_le hm.ne'
    push_cast at h ⊢
    rw [zpow_add₀ two_ne_zero, zpow_natCast]
    gcongr
  have hhigh : (m : ℚ) * 2 ^ e < ((2 : ℕ) : ℚ) ^ ((m.log2 : ℤ) + e + 1) := by
    have h : (m : ℚ) < ((2 ^ (m.log2 + 1) : ℕ) : ℚ) := by exact_mod_cast Nat.lt_log2_self
    have hsplit : ((m.log2 : ℤ) + e + 1) = ((m.log2 + 1 : ℕ) : ℤ) + e := by push_cast; ring
    push_cast at h ⊢
    rw [hsplit, zpow_add₀ two_ne_zero, zpow_natCast]
    gcongr
  have h1 := (Int.zpow_le_iff_le_log one_lt_two hq).mp hlow
  have h2 := (Int.lt_zpow_iff_log_lt one_lt_two hq).mp hhigh
  omega

/-- The exponent that the format asks for is that of the grid. -/
theorem targetExponent_eq {m : ℕ} (hm : 0 < m) (e : ℤ) :
    Format.binary64.targetExponent (totalExponent m e) = gridExponent (m * 2 ^ e) := by
  rw [gridExponent, log_scaled hm, Format.targetExponent, totalExponent]
  simp only [Format.mantissaBits, Format.minExponent]
  norm_num
  omega

/-- A canonical mantissa has fifty-three bits, or fewer on the finest
grid. -/
theorem canonical_finite_iff {s : Sign} {m : ℕ} {e : ℤ} (hm : 0 < m) :
    Canonical (.finite s m e hm) ↔
      (m.log2 = 52 ∧ -1074 ≤ e ∨ m.log2 < 52 ∧ e = -1074) ∧ e ≤ maxGridExponent := by
  rw [Canonical, gridExponent, log_scaled hm]
  omega

/-- A positive representable number is a natural multiple of the width of
its own grid. -/
theorem Representable.exists_nat_mul {q : ℚ} (hq : 0 < q) (h : Representable q) :
    gridExponent q ≤ maxGridExponent ∧ ∃ k : ℕ, 0 < k ∧ q = k * 2 ^ gridExponent q := by
  obtain ⟨k, e, hk, hlow, hhigh, rfl⟩ := h
  have hkpos : 0 < k := by
    have := (mul_pos_iff_of_pos_right (by positivity : (0 : ℚ) < 2 ^ e)).mp hq
    exact_mod_cast this
  obtain ⟨n, rfl⟩ := Int.eq_ofNat_of_zero_le hkpos.le
  have hn : 0 < n := by omega
  have hlog : n.log2 < 53 := (Nat.log2_lt hn.ne').mpr (by rw [abs_of_pos hkpos] at hk; omega)
  have hgrid : gridExponent (n * 2 ^ e) ≤ e := by
    rw [gridExponent, log_scaled hn]
    omega
  refine ⟨by push_cast; omega, n * 2 ^ (e - gridExponent (n * 2 ^ e)).toNat, by positivity, ?_⟩
  have hexp : e = ((e - gridExponent (n * 2 ^ e)).toNat : ℤ) + gridExponent (n * 2 ^ e) := by
    omega
  push_cast
  rw [mul_assoc, ← zpow_natCast, ← zpow_add₀ two_ne_zero, ← hexp]

/-! ## Shifting a mantissa -/

/-- Shifting trailing zeros out loses nothing. -/
theorem shiftRight_mul_two_pow (k n : ℕ) :
    (⟨k * 2 ^ n, false, false⟩ : ExtendedMantissa) >>> n = ⟨k, false, false⟩ := by
  induction n generalizing k with
  | zero => simp [HShiftRight.hShiftRight, Nat.repeat]
  | succ n ih =>
      have hdouble : k * 2 ^ (n + 1) = (2 * k) * 2 ^ n := by ring
      have h := ih (2 * k)
      simp only [HShiftRight.hShiftRight] at h ⊢
      rw [hdouble, Nat.repeat, h]
      simp [ExtendedMantissa.shiftRightOne]

/-- A mantissa moves to its target exponent without loss if only zero bits
are shifted out. -/
theorem shiftToTargetExponent_mul_two_pow {k n : ℕ} {e : ℤ}
    (htarget : Format.binary64.targetExponent (totalExponent (k * 2 ^ n) e) = e + n) :
    shiftToTargetExponent .binary64 (k * 2 ^ n) e .exact = (⟨k, false, false⟩, e + n) := by
  have hshift : (e + n - e).toNat = n := by omega
  rw [shiftToTargetExponent, htarget, shiftToExponent, hshift]
  exact congrArg (·, e + (n : ℤ)) (shiftRight_mul_two_pow k n)

/-- A sign on a number is a factor of it. -/
theorem cast_apply (s : Sign) (n : ℤ) : ((s.apply n : ℤ) : ℚ) = (s.apply 1 : ℤ) * n := by
  cases s <;> simp [Sign.apply]

/-- A smaller exponent is reached by trailing zeros. -/
theorem decreaseExponent_eq (m : ℕ) {e t : ℤ} (h : t ≤ e) :
    decreaseExponent m e t = (m * 2 ^ (e - t).toNat, t) := by
  rw [decreaseExponent, Nat.shiftLeft_eq]
  congr 1
  omega

/-- With a smaller exponent the number is the same. -/
theorem scaled_decrease (m : ℚ) {e t : ℤ} (h : t ≤ e) :
    m * 2 ^ (e - t).toNat * 2 ^ t = m * 2 ^ e := by
  rw [mul_assoc, ← zpow_natCast, ← zpow_add₀ two_ne_zero]
  congr 2
  omega

/-- The format is symmetric about zero. -/
theorem Representable.neg {q : ℚ} (h : Representable q) : Representable (-q) := by
  obtain ⟨k, e, hk, hlow, hhigh, rfl⟩ := h
  exact ⟨-k, e, by rwa [abs_neg], hlow, hhigh, by push_cast; ring⟩

end Binary64

end Univariate
