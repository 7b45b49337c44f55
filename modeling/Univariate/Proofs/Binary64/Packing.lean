import Univariate.Proofs.Binary64.Grid

/-!
# Packing binary64 numbers

Sixty-four bits hold a sign, an exponent field of eleven bits and a
fraction of fifty-two; the leading one of a mantissa is stored only through
the exponent field.  Both directions are faithful: unpacking answers in
canonical form, and a canonical number survives packing.

* `unpack_pack` — packing a canonical number loses nothing;
* `canonical_unpack` — unpacking answers in canonical form;
* `pack_unpack` — valid bits come back from their unpacked form.
-/

namespace Univariate

namespace Binary64

open Float.Model Float.Model.UnpackedFloat

/-! ## Putting the parts together -/

/-- The leading bit that is not stored, in front of the fraction. -/
theorem toNat_leading_append (v : BitVec 52) : (1#1 ++ v).toNat = 2 ^ 52 + v.toNat := by
  have hv := v.isLt
  rw [BitVec.toNat_append, ← Nat.shiftLeft_add_eq_or_of_lt hv, Nat.shiftLeft_eq]
  rfl

/-- The sign is found where it was put. -/
@[simp] theorem unpackSign_packComponents {spec : Format} (s : Sign)
    (e : BitVec spec.exponentBits) (m : BitVec spec.mantissaBitsWithoutImplicit) :
    unpackSign (packComponents spec s e m) = s.toBitVec := by
  ext i hi
  obtain rfl : i = 0 := by omega
  simp [unpackSign, packComponents, BitVec.getLsbD_eq_getElem, BitVec.getLsbD_append,
    BitVec.getElem_append]

@[simp] theorem ofBitVec_toBitVec (s : Sign) : Sign.ofBitVec s.toBitVec = s := by
  cases s <;> rfl

/-- A mantissa with its leading one comes back. -/
theorem unpack_normal (s : Sign) {b m : ℕ} (hm : 0 < m) (hb : 0 < b) (hmax : b < 2047)
    (hlog : m.log2 = 52) :
    UnpackedFloat.unpack .binary64
      (packComponents .binary64 s (BitVec.ofNat 11 b) (BitVec.ofNat 52 m)) =
      .finite s m (b - 1075) hm := by
  have hlow : 2 ^ 52 ≤ m := hlog ▸ Nat.log2_self_le hm.ne'
  have hhigh : m < 2 ^ 53 := (Nat.log2_lt hm.ne').mp (by omega)
  have hinf : BitVec.ofNat 11 b ≠ -1#11 := by
    intro h
    have := congrArg BitVec.toNat h
    simp at this
    omega
  have hzero : BitVec.ofNat 11 b ≠ 0#11 := by
    intro h
    have := congrArg BitVec.toNat h
    simp at this
    omega
  have hmant : (1#1 ++ BitVec.ofNat 52 m).toNat = m := by
    rw [toNat_leading_append, BitVec.toNat_ofNat]
    omega
  have hfield : (BitVec.ofNat 11 b).toNat = b := by
    rw [BitVec.toNat_ofNat]
    omega
  unfold UnpackedFloat.unpack
  simp only [unpackMantissa_packComponents, unpackExponent_packComponents,
    unpackSign_packComponents, ofBitVec_toBitVec, if_neg hinf, if_neg hzero, hmant, hfield]
  congr 1

/-- Numbers with fewer bits than the format has are unpacked on the finest
grid. -/
theorem unpack_subnormal (s : Sign) {m : ℕ} (hm : 0 < m) (hlog : m.log2 < 52) :
    UnpackedFloat.unpack .binary64 (packComponents .binary64 s 0#11 (BitVec.ofNat 52 m)) =
      .finite s m (-1074) hm := by
  have hhigh : m < 2 ^ 52 := (Nat.log2_lt hm.ne').mp hlog
  have hmant : (BitVec.ofNat 52 m).toNat = m := by
    rw [BitVec.toNat_ofNat]
    omega
  have hzero : BitVec.ofNat 52 m ≠ 0#52 := by
    intro h
    have := congrArg BitVec.toNat h
    rw [hmant] at this
    exact hm.ne' this
  have hinf : 0#11 ≠ -1#11 := by decide
  unfold UnpackedFloat.unpack
  simp only [unpackMantissa_packComponents, unpackExponent_packComponents,
    unpackSign_packComponents, ofBitVec_toBitVec, if_neg hinf, if_true, dif_neg hzero, hmant]
  congr 1

/-- A mantissa with its leading one is packed into field and fraction. -/
theorem pack_normal (s : Sign) {m : ℕ} {e : ℤ} (hm : 0 < m) (hlog : m.log2 = 52)
    (hlow : -1074 ≤ e) (hmax : e ≤ maxGridExponent) :
    UnpackedFloat.pack .binary64 (.finite s m e hm) =
      packComponents .binary64 s (BitVec.ofNat 11 (e + 1075).toNat) (BitVec.ofNat 52 m) := by
  have hfield : e + (Format.binary64.exponentBias : ℤ) + (52 : ℕ) = e + 1075 := by
    norm_num [Format.exponentBias]
    ring
  rw [maxGridExponent] at hmax
  simp only [UnpackedFloat.pack]
  rw [hfield, if_neg (by omega), if_pos (by rw [hlog]; rfl)]

/-- They are packed with the exponent's field at zero. -/
theorem pack_subnormal (s : Sign) {m : ℕ} (hm : 0 < m) (hlog : m.log2 < 52) :
    UnpackedFloat.pack .binary64 (.finite s m (-1074) hm) =
      packComponents .binary64 s 0#11 (BitVec.ofNat 52 m) := by
  have hbits : Format.binary64.mantissaBits = 53 := rfl
  simp only [UnpackedFloat.pack]
  rw [if_neg (by decide), if_neg (by omega)]

/-- **Packing a canonical number loses nothing.** -/
theorem unpack_pack {u : UnpackedFloat} (hu : Canonical u) :
    UnpackedFloat.unpack .binary64 (UnpackedFloat.pack .binary64 u) = u := by
  cases u with
  | notANumber => rfl
  | infinity s => cases s <;> rfl
  | zero s => cases s <;> rfl
  | finite s m e hm =>
      obtain ⟨⟨hlog, hlow⟩ | ⟨hlog, rfl⟩, hmax⟩ := (canonical_finite_iff hm).mp hu
      · rw [pack_normal s hm hlog hlow hmax]
        rw [maxGridExponent] at hmax
        rw [unpack_normal s hm (by omega) (by omega) hlog]
        congr 1
        omega
      · rw [pack_subnormal s hm hlog, unpack_subnormal s hm hlog]

/-! ## What unpacking reads -/

/-- The fraction is the lowest 52 bits. -/
theorem toNat_unpackMantissa (b : BitVec 64) :
    (@unpackMantissa .binary64 b).toNat = b.toNat % 2 ^ 52 := by
  simp [unpackMantissa, BitVec.extractLsb, BitVec.extractLsb'_toNat]

/-- The exponent's field is the 11 bits above them. -/
theorem toNat_unpackExponent (b : BitVec 64) :
    (@unpackExponent .binary64 b).toNat = b.toNat / 2 ^ 52 % 2 ^ 11 := by
  simp [unpackExponent, BitVec.extractLsb, BitVec.extractLsb'_toNat, Nat.shiftRight_eq_div_pow]

/-- The sign is the highest bit. -/
theorem toNat_unpackSign (b : BitVec 64) :
    (@unpackSign .binary64 b).toNat = b.toNat / 2 ^ 63 % 2 := by
  simp [unpackSign, BitVec.extractLsb, BitVec.extractLsb'_toNat, Nat.shiftRight_eq_div_pow]

/-- With the leading bit there are 53. -/
theorem log2_leading_append (v : BitVec 52) : (1#1 ++ v).toNat.log2 = 52 := by
  have hv := v.isLt
  rw [toNat_leading_append, Nat.log2_eq_iff (by omega)]
  omega

/-- A fraction by itself has 52 bits at most. -/
theorem log2_fraction_lt {v : BitVec 52} (hv : ¬ v = 0#52) : v.toNat.log2 < 52 := by
  refine (Nat.log2_lt ?_).mpr v.isLt
  simpa [← BitVec.toNat_inj] using hv

/-- **Unpacking answers in canonical form.** -/
theorem canonical_unpack (b : BitVec 64) :
    Canonical (UnpackedFloat.unpack .binary64 b) := by
  fun_cases UnpackedFloat.unpack .binary64 b with
  | case1 => trivial
  | case2 => trivial
  | case3 => trivial
  | case4 fraction field exponent _ _ _ hzero hne =>
      have hlog := log2_fraction_lt hne
      have hexp : exponent + 1 = -1074 := by
        have : field.toNat = 0 := by simp [hzero]
        simp only [exponent, this]
        rfl
      rw [canonical_finite_iff, maxGridExponent]
      omega
  | case5 fraction field exponent _ _ hne hzero =>
      have hlog := log2_leading_append fraction
      have hlow : field.toNat ≠ 0 := by simpa [← BitVec.toNat_inj] using hzero
      have hhigh : field.toNat ≠ 2047 := by simpa [← BitVec.toNat_inj] using hne
      have hlt : field.toNat < 2048 := field.isLt
      have hexp : exponent = field.toNat - 1075 := rfl
      rw [canonical_finite_iff, maxGridExponent]
      omega

@[simp] theorem toBitVec_ofBitVec (v : BitVec 1) : (Sign.ofBitVec v).toBitVec = v := by
  revert v
  decide

/-- **The three fields make up the number.** -/
theorem packComponents_unpack (b : BitVec 64) :
    packComponents .binary64 (Sign.ofBitVec (@unpackSign .binary64 b)) (unpackExponent b)
      (unpackMantissa b) = b := by
  apply BitVec.eq_of_toNat_eq
  have hb := b.isLt
  have hfraction : b.toNat % 2 ^ 52 < 2 ^ 52 := Nat.mod_lt _ (by norm_num)
  have hfield : b.toNat / 2 ^ 52 % 2 ^ 11 < 2 ^ 11 := Nat.mod_lt _ (by norm_num)
  rw [packComponents, toBitVec_ofBitVec, BitVec.toNat_append, BitVec.toNat_append,
    toNat_unpackMantissa, toNat_unpackExponent, toNat_unpackSign,
    ← Nat.shiftLeft_add_eq_or_of_lt hfield, ← Nat.shiftLeft_add_eq_or_of_lt hfraction,
    Nat.shiftLeft_eq, Nat.shiftLeft_eq]
  omega

/-- **Valid bits come back from their unpacked form.** -/
theorem pack_unpack {b : BitVec 64} (hvalid : Format.binary64.Valid b) :
    UnpackedFloat.pack .binary64 (UnpackedFloat.unpack .binary64 b) = b := by
  have hparts := packComponents_unpack b
  have hcan := canonical_unpack b
  revert hcan
  fun_cases UnpackedFloat.unpack .binary64 b with
  | case1 fraction field _ sign hinf hzero =>
      intro _
      change packComponents .binary64 sign field fraction = b at hparts
      rwa [hinf, hzero] at hparts
  | case2 fraction field hinf hne =>
      intro _
      exact (hvalid.eq_packedNaN hinf hne).symm
  | case3 fraction field _ sign _ hzero hfrac =>
      intro _
      change packComponents .binary64 sign field fraction = b at hparts
      rwa [hzero, hfrac] at hparts
  | case4 fraction field exponent _ sign _ hzero hne =>
      intro _
      change packComponents .binary64 sign field fraction = b at hparts
      have hexp : exponent + 1 = -1074 := by
        have : field.toNat = 0 := by simp [hzero]
        simp only [exponent, this]
        rfl
      simp only [hexp]
      rw [pack_subnormal _ _ (log2_fraction_lt hne), ← hparts, hzero]
      simp
  | case5 fraction field exponent _ sign hne hzero =>
      intro hcan
      change packComponents .binary64 sign field fraction = b at hparts
      have hlog := log2_leading_append fraction
      have hstored : BitVec.ofNat 52 (1#1 ++ fraction).toNat = fraction := by
        apply BitVec.eq_of_toNat_eq
        have hlt : fraction.toNat < 2 ^ 52 := fraction.isLt
        rw [BitVec.toNat_ofNat, toNat_leading_append]
        omega
      have hfield : (exponent + 1075).toNat = field.toNat := by
        have : exponent = field.toNat - 1075 := rfl
        omega
      obtain ⟨hcases, hmax⟩ := (canonical_finite_iff _).mp hcan
      rw [pack_normal _ _ hlog (by omega) hmax, hstored, hfield, ← hparts]
      simp

end Binary64

end Univariate
