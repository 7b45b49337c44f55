import Univariate.Decimal.Dyadic
import Univariate.Proofs.Binary64.Exact

/-!
# Decoding binary64 numbers

`FloatValue.ofFloat` takes a number apart by dividing its bits; arithmetic
is defined on the unpacked form.  Both read the same, so that a number is
exactly the rational that its dyadic value is.

* `ofFloat_eq` — both readings agree;
* `exactly_iff_toRat` — the value of a number is that of its dyadic;
* `toInt?` — the integer that a number is, with `toInt?_eq_some_iff`.
-/

namespace Univariate

namespace Dyadic

/-- The rational number that a dyadic value is. -/
def toRat (d : Dyadic) : ℚ :=
  (if d.negative then -1 else 1) * (d.mantissa * 2 ^ d.exponent)

/-- Numerator and denominator make up the number. -/
theorem numerator_div_denominator (d : Dyadic) :
    (d.numerator : ℚ) / d.denominator = d.mantissa * 2 ^ d.exponent := by
  unfold numerator denominator
  split_ifs with h
  · have hexp : ((d.exponent.toNat : ℕ) : ℤ) = d.exponent := by omega
    rw [Nat.pow_eq]
    push_cast
    rw [div_one, ← zpow_natCast, hexp]
  · have hexp : (((-d.exponent).toNat : ℕ) : ℤ) = -d.exponent := by omega
    rw [Nat.pow_eq]
    push_cast
    rw [← zpow_natCast, hexp, zpow_neg, div_inv_eq_mul]

/-- The denominator is a power of two. -/
theorem denominator_pos (d : Dyadic) : 0 < d.denominator := by
  unfold denominator
  split_ifs
  · exact one_pos
  · exact Nat.pow_pos two_pos

/-- An integer is read off exactly if the number is that integer. -/
theorem toInt?_eq_some_iff (d : Dyadic) (n : ℤ) : d.toInt? = some n ↔ d.toRat = n := by
  have hden : (d.denominator : ℚ) ≠ 0 := by exact_mod_cast d.denominator_pos.ne'
  rw [toRat, ← numerator_div_denominator, toInt?]
  by_cases hdvd : d.numerator % d.denominator = 0
  · obtain ⟨k, hk⟩ := Nat.dvd_of_mod_eq_zero hdvd
    have hquot : (d.numerator : ℚ) / d.denominator = k := by
      rw [hk]
      push_cast
      field_simp
    have hnat : d.numerator / d.denominator = k := by
      rw [hk, Nat.mul_div_cancel_left k d.denominator_pos]
    rw [if_pos hdvd, hquot, hnat, Option.some.injEq]
    split_ifs
    · rw [neg_one_mul]
      exact_mod_cast Iff.rfl
    · rw [one_mul]
      exact_mod_cast Iff.rfl
  · rw [if_neg hdvd]
    refine iff_of_false (by simp) fun h => hdvd ?_
    have hmul : (d.numerator : ℚ) = (if d.negative then -1 else 1) * n * d.denominator := by
      rw [← h]
      split_ifs <;> field_simp
    have hint : (d.numerator : ℤ) = (if d.negative then -1 else 1) * n * d.denominator := by
      split_ifs at hmul ⊢ <;> exact_mod_cast hmul
    have hdiv : (d.denominator : ℤ) ∣ d.numerator := hint ▸ Dvd.intro_left _ rfl
    exact Nat.mod_eq_zero_of_dvd (by exact_mod_cast hdiv)

end Dyadic

namespace Binary64

open Float.Model Float.Model.UnpackedFloat

/-- The sign is the negative one. -/
def isNegative : Sign → Bool
  | .negative => true
  | .positive => false

/-- An unpacked number as a binary64 value. -/
def valueOf : UnpackedFloat → FloatValue
  | .notANumber => .undefined
  | .infinity s => .infinite (isNegative s)
  | .zero s => .finite ⟨isNegative s, 0, -1074⟩
  | .finite s m e _ => .finite ⟨isNegative s, m, e⟩

/-- The sign is the highest of the 64 bits. -/
theorem isNegative_unpackSign (b : BitVec 64) :
    isNegative (Sign.ofBitVec (@unpackSign .binary64 b)) = decide (2 ^ 63 ≤ b.toNat) := by
  have hb := b.isLt
  have hsign := toNat_unpackSign b
  rw [Bool.eq_iff_iff, decide_eq_true_iff, Sign.ofBitVec]
  split_ifs with hzero
  · rw [hzero, BitVec.toNat_ofNat] at hsign
    simp only [isNegative, Bool.false_eq_true, false_iff]
    omega
  · have : (@unpackSign .binary64 b).toNat ≠ 0 := by simpa [← BitVec.toNat_inj] using hzero
    simp only [isNegative, true_iff]
    omega

/-- Unpacking, in terms of the three parts as natural numbers. -/
theorem valueOf_unpack (b : BitVec 64) :
    valueOf (UnpackedFloat.unpack .binary64 b) =
      let negative := decide (2 ^ 63 ≤ b.toNat)
      let field : ℕ := b.toNat / 2 ^ 52 % 2 ^ 11
      let fraction : ℕ := b.toNat % 2 ^ 52
      if field = 2047 then if fraction = 0 then .infinite negative else .undefined
      else if field = 0 then .finite ⟨negative, fraction, -1074⟩
      else .finite ⟨negative, 2 ^ 52 + fraction, (field : ℤ) - 1075⟩ := by
  simp only [← isNegative_unpackSign, ← toNat_unpackExponent, ← toNat_unpackMantissa]
  have hinf : @unpackExponent .binary64 b = -1#11 ↔
      (@unpackExponent .binary64 b).toNat = 2047 := by
    simp [← BitVec.toNat_inj]
  have hzero : @unpackExponent .binary64 b = 0#11 ↔
      (@unpackExponent .binary64 b).toNat = 0 := by
    simp [← BitVec.toNat_inj]
  have hfrac : @unpackMantissa .binary64 b = 0#52 ↔
      (@unpackMantissa .binary64 b).toNat = 0 := by
    simp [← BitVec.toNat_inj]
  fun_cases UnpackedFloat.unpack .binary64 b with
  | case1 fraction field _ sign h1 h2 =>
      rw [if_pos (hinf.mp h1), if_pos (hfrac.mp h2)]
      rfl
  | case2 fraction field h1 h2 =>
      rw [if_pos (hinf.mp h1), if_neg (mt hfrac.mpr h2)]
      rfl
  | case3 fraction field _ sign h1 h2 h3 =>
      rw [if_neg (mt hinf.mpr h1), if_pos (hzero.mp h2), hfrac.mp h3]
      rfl
  | case4 fraction field exponent _ sign h1 h2 h3 =>
      rw [if_neg (mt hinf.mpr h1), if_pos (hzero.mp h2), valueOf]
      simp only [exponent, field, hzero.mp h2]
      rfl
  | case5 fraction field exponent _ sign h1 h2 =>
      rw [if_neg (mt hinf.mpr h1), if_neg (mt hzero.mpr h2), valueOf, toNat_leading_append]
      rfl

/-- **Dividing the bits reads what unpacking reads.** -/
theorem ofFloat_eq (x : Float) : FloatValue.ofFloat x = valueOf x.toModel.unpack := by
  have hbits : x.toBits.toNat = x.toModel.toBits.toBitVec.toNat := rfl
  have hnan : x.isNaN = x.toModel.unpack.isNaN := rfl
  have hvalue : valueOf x.toModel.unpack = _ := valueOf_unpack x.toModel.toBits.toBitVec
  simp only [FloatValue.ofFloat, hnan, hbits, Nat.pow_eq]
  by_cases hnumber : x.toModel.unpack = .notANumber
  · rw [hnumber]
    rfl
  have hnotNaN : x.toModel.unpack.isNaN = false := by
    cases h : x.toModel.unpack <;> first | rfl | exact absurd h hnumber
  have hdefined : valueOf x.toModel.unpack ≠ .undefined := by
    cases h : x.toModel.unpack <;> first | exact absurd h hnumber | simp [valueOf]
  rw [hvalue] at hdefined ⊢
  simp only [hnotNaN, Bool.false_eq_true, if_false] at hdefined ⊢
  split_ifs at hdefined ⊢
  · rfl
  · exact absurd rfl hdefined
  · rfl
  · rfl

/-- A decoded number has a rational value exactly if it is finite. -/
theorem rat?_eq_some_iff (u : UnpackedFloat) (q : ℚ) :
    rat? u = some q ↔ ∃ d, valueOf u = .finite d ∧ d.toRat = q := by
  cases u with
  | notANumber => simp [rat?, valueOf]
  | infinity s => simp [rat?, valueOf]
  | zero s => simp [rat?, valueOf, Dyadic.toRat]
  | finite s m e hm => cases s <;> simp [rat?, valueOf, Dyadic.toRat, Sign.apply, isNegative]

/-- **A number is exactly what its dyadic value is.** -/
theorem exactly_iff_toRat (x : Float) (q : ℚ) :
    Exactly x q ↔ ∃ d, FloatValue.ofFloat x = .finite d ∧ d.toRat = q := by
  rw [ofFloat_eq]
  exact rat?_eq_some_iff _ q

/-- The integer that a number is, if it is one. -/
def toInt? (x : Float) : Option ℤ :=
  match FloatValue.ofFloat x with
  | .finite d => d.toInt?
  | _ => none

/-- **A binary number is read as an integer** exactly if it stands for it. -/
theorem toInt?_eq_some_iff (x : Float) (n : ℤ) : toInt? x = some n ↔ Exactly x n := by
  rw [exactly_iff_toRat, toInt?]
  cases h : FloatValue.ofFloat x with
  | undefined => simp
  | infinite s => simp
  | finite d => simp [Dyadic.toInt?_eq_some_iff]

end Binary64

end Univariate
