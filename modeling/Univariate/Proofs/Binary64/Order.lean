import Univariate.Proofs.Binary64.Nearest

/-!
# The order of the bits

Without its sign bit a finite number is an integer: the place of its grid
times the size of a binade, plus its mantissa.  Larger magnitudes have
larger integers, so that sorting by bits sorts by value.

* `toNat_pack` — the bits of a finite number;
* `Exactly.sortKey_lt` — sorting by bits agrees with the order of the
  values.
-/

namespace Univariate

namespace Binary64

open Float.Model Float.Model.UnpackedFloat

/-- The bits without the sign bit. -/
def magnitudeBits (m : ℕ) (e : ℤ) : ℤ := (e + 1074) * 2 ^ 52 + m

/-- The 64 bits as a number: the sign, the exponent's field and the fraction
at their places. -/
theorem toNat_packComponents (s : Sign) (field : BitVec 11) (fraction : BitVec 52) :
    (packComponents .binary64 s field fraction).toNat =
      s.toBitVec.toNat * 2 ^ 63 + field.toNat * 2 ^ 52 + fraction.toNat := by
  have hfield : field.toNat < 2 ^ 11 := field.isLt
  have hfraction : fraction.toNat < 2 ^ 52 := fraction.isLt
  rw [packComponents, BitVec.toNat_append, BitVec.toNat_append,
    ← Nat.shiftLeft_add_eq_or_of_lt hfield, ← Nat.shiftLeft_add_eq_or_of_lt hfraction,
    Nat.shiftLeft_eq, Nat.shiftLeft_eq]
  ring

/-- The bits of a finite number. -/
theorem toNat_pack {s : Sign} {m : ℕ} {e : ℤ} {hm : 0 < m} (h : Canonical (.finite s m e hm)) :
    ((UnpackedFloat.pack .binary64 (.finite s m e hm)).toNat : ℤ) =
      s.toBitVec.toNat * 2 ^ 63 + magnitudeBits m e := by
  obtain ⟨⟨hlog, hlow⟩ | ⟨hlog, rfl⟩, hmax⟩ := (canonical_finite_iff hm).mp h
  · have hmlow : 2 ^ 52 ≤ m := hlog ▸ Nat.log2_self_le hm.ne'
    have hmhigh : m < 2 ^ 53 := (Nat.log2_lt hm.ne').mp (by omega)
    rw [pack_normal s hm hlog hlow hmax, toNat_packComponents, BitVec.toNat_ofNat,
      BitVec.toNat_ofNat, magnitudeBits]
    rw [maxGridExponent] at hmax
    omega
  · have hmhigh : m < 2 ^ 52 := (Nat.log2_lt hm.ne').mp hlog
    rw [pack_subnormal s hm hlog, toNat_packComponents, BitVec.toNat_ofNat, magnitudeBits]
    simp
    omega

/-- Larger magnitudes have larger bits. -/
theorem magnitudeBits_lt {s t : Sign} {m n : ℕ} {e f : ℤ} {hm : 0 < m} {hn : 0 < n}
    (hu : Canonical (.finite s m e hm)) (hv : Canonical (.finite t n f hn))
    (h : (m : ℚ) * 2 ^ e < n * 2 ^ f) : magnitudeBits m e < magnitudeBits n f := by
  obtain ⟨hcu, -⟩ := (canonical_finite_iff hm).mp hu
  obtain ⟨hcv, -⟩ := (canonical_finite_iff hn).mp hv
  have hmhigh : m < 2 ^ 53 := (Nat.log2_lt hm.ne').mp (by omega)
  unfold magnitudeBits
  rcases lt_trichotomy e f with hlt | rfl | hgt
  · have hnlow : 2 ^ 52 ≤ n := by
      have hlog : n.log2 = 52 := by omega
      exact hlog ▸ Nat.log2_self_le hn.ne'
    omega
  · have hlt : m < n := by
      have := lt_of_mul_lt_mul_right h (by positivity)
      exact_mod_cast this
    omega
  · exact absurd h (not_lt.mpr (scaled_lt_of_exponent_lt hv hu hgt).le)

/-- The bits below the sign are not all zero, and there are 63 of them. -/
theorem magnitudeBits_bounds {s : Sign} {m : ℕ} {e : ℤ} {hm : 0 < m}
    (h : Canonical (.finite s m e hm)) : 0 < magnitudeBits m e ∧ magnitudeBits m e < 2 ^ 63 := by
  obtain ⟨hcases, hmax⟩ := (canonical_finite_iff hm).mp h
  have hmhigh : m < 2 ^ 53 := (Nat.log2_lt hm.ne').mp (by omega)
  rw [maxGridExponent] at hmax
  unfold magnitudeBits
  omega

/-- The place of a magnitude behind its sign. -/
def signedPlace (s : Sign) (bits : ℤ) : ℤ :=
  match s with
  | .positive => bits
  | .negative => -1 - bits

/-- The key by which numbers are sorted is the magnitude's bits with the
sign. -/
theorem sortKey_eq {x : Float} {s : Sign} {bits : ℤ} (hnan : x.isNaN = false)
    (hbits : ((UnpackedFloat.pack .binary64 x.toModel.unpack).toNat : ℤ) =
      s.toBitVec.toNat * 2 ^ 63 + bits) (hlow : 0 ≤ bits) (hhigh : bits < 2 ^ 63) :
    sortKey x = signedPlace s bits := by
  have hpack : UnpackedFloat.pack .binary64 x.toModel.unpack = x.toModel.toBits.toBitVec :=
    pack_unpack x.toModel.valid
  rw [hpack] at hbits
  have hnat : (x.toBits.toNat : ℤ) = s.toBitVec.toNat * 2 ^ 63 + bits := hbits
  have hpow : Nat.pow 2 63 = 2 ^ 63 := rfl
  unfold sortKey
  rw [hnan]
  simp only [Bool.false_eq_true, if_false, hpow]
  cases s with
  | positive =>
      have hzero : (Sign.toBitVec .positive).toNat = 0 := rfl
      rw [hzero] at hnat
      rw [if_pos (by omega), signedPlace]
      omega
  | negative =>
      have hone : (Sign.toBitVec .negative).toNat = 1 := rfl
      rw [hone] at hnat
      rw [if_neg (by omega), signedPlace]
      push_cast
      omega

/-- The place of a number among all numbers. -/
theorem sortKey_finite {x : Float} {s : Sign} {m : ℕ} {e : ℤ} {hm : 0 < m}
    (hx : x.toModel.unpack = .finite s m e hm) :
    sortKey x = signedPlace s (magnitudeBits m e) := by
  have hcanonical : Canonical (.finite s m e hm) := hx ▸ canonical_unpack _
  obtain ⟨hlow, hhigh⟩ := magnitudeBits_bounds hcanonical
  have hnan : x.isNaN = x.toModel.unpack.isNaN := rfl
  refine sortKey_eq (by rw [hnan, hx]; rfl) ?_ hlow.le hhigh
  rw [hx]
  exact toNat_pack hcanonical

/-- A zero sorts by its sign alone. -/
theorem sortKey_zero {x : Float} {s : Sign} (hx : x.toModel.unpack = .zero s) :
    sortKey x = signedPlace s 0 := by
  have hnan : x.isNaN = x.toModel.unpack.isNaN := rfl
  refine sortKey_eq (by rw [hnan, hx]; rfl) ?_ le_rfl (by norm_num)
  rw [hx]
  cases s <;> rfl

/-- **Sorting by bits agrees with the order of the values.** -/
theorem Exactly.sortKey_lt {x y : Float} {p q : ℚ} (hx : Exactly x p) (hy : Exactly y q)
    (h : p < q) : sortKey x < sortKey y := by
  have hcanonical := canonical_unpack x.toModel.toBits.toBitVec
  have hcanonical' := canonical_unpack y.toModel.toBits.toBitVec
  change Canonical x.toModel.unpack at hcanonical
  change Canonical y.toModel.unpack at hcanonical'
  rcases hx.unpacks.zero_or_finite with ⟨s, hxs, rfl⟩ | ⟨s, m, e, hm, hxs, rfl⟩ <;>
    rcases hy.unpacks.zero_or_finite with ⟨t, hyt, rfl⟩ | ⟨t, n, f, hn, hyt, rfl⟩
  · exact absurd h (lt_irrefl 0)
  · -- From zero up.
    rw [hyt] at hcanonical'
    obtain ⟨hlow, -⟩ := magnitudeBits_bounds hcanonical'
    have hpos : (0 : ℚ) < n * 2 ^ f := by positivity
    rw [sortKey_zero hxs, sortKey_finite hyt]
    cases t with
    | positive => cases s <;> simp only [signedPlace] <;> omega
    | negative =>
        simp only [Sign.apply, Int.cast_neg, neg_mul, Int.cast_natCast] at h
        linarith
  · -- From below up to zero.
    rw [hxs] at hcanonical
    obtain ⟨hlow, -⟩ := magnitudeBits_bounds hcanonical
    have hpos : (0 : ℚ) < m * 2 ^ e := by positivity
    rw [sortKey_zero hyt, sortKey_finite hxs]
    cases s with
    | positive =>
        simp only [Sign.apply, Int.cast_natCast] at h
        linarith
    | negative => cases t <;> simp only [signedPlace] <;> omega
  · rw [hxs] at hcanonical
    rw [hyt] at hcanonical'
    obtain ⟨hlow, -⟩ := magnitudeBits_bounds hcanonical
    obtain ⟨hlow', -⟩ := magnitudeBits_bounds hcanonical'
    have hp : (0 : ℚ) < m * 2 ^ e := by positivity
    have hq : (0 : ℚ) < n * 2 ^ f := by positivity
    rw [sortKey_finite hxs, sortKey_finite hyt]
    cases s <;> cases t <;>
      simp only [Sign.apply, Int.cast_neg, neg_mul, Int.cast_natCast] at h <;>
      simp only [signedPlace]
    · have := magnitudeBits_lt hcanonical' hcanonical (neg_lt_neg_iff.mp h)
      omega
    · omega
    · linarith
    · exact magnitudeBits_lt hcanonical hcanonical' h

end Binary64

end Univariate
