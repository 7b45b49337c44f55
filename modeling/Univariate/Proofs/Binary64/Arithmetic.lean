import Univariate.Proofs.Binary64.Rounding

/-!
# Rounded binary64 arithmetic

Every operation computes its true result, as a mantissa with two residual
bits, and rounds it once.  So its answer is the true result `rounded` to
nearest; only the exponent may have become too large, which packing turns
into an infinity.

* `rounded_mono`, `rounded_eq`, `abs_sub_rounded_le` — rounding keeps the
  order, does not move what is representable, and moves everything else by
  very little;
* `Rounds` — an unpacked number is the result of rounding a rational;
* `rounds_add`, `rounds_sub`, `rounds_mul`, `rounds_div` — the operations;
* `Rounds.unpacks` — below the overflow threshold nothing else happens.
-/

namespace Univariate

namespace Binary64

open Float.Model Float.Model.UnpackedFloat

variable {u v : UnpackedFloat} {p q : ℚ}

/-! ## Signs -/

/-- Above zero only the magnitude matters. -/
theorem rounded_of_nonneg (hq : 0 ≤ q) : rounded q = roundMag q := if_pos hq

/-- Rounding is symmetric about zero. -/
theorem rounded_neg (q : ℚ) : rounded (-q) = -rounded q := by
  unfold rounded
  rcases lt_trichotomy q 0 with h | rfl | h
  · rw [if_pos (by linarith), if_neg (by linarith), neg_neg]
  · simp [roundMag_zero]
  · rw [if_neg (by linarith), if_pos h.le, neg_neg]

/-- **Rounding keeps the order.** -/
theorem rounded_mono (h : p ≤ q) : rounded p ≤ rounded q := by
  unfold rounded
  split_ifs with hp hq hq
  · exact roundMag_mono hp h
  · linarith
  · linarith [roundMag_nonneg (-p), roundMag_nonneg q]
  · exact neg_le_neg (roundMag_mono (by linarith) (by linarith))

/-- The magnitude is rounded by itself. -/
theorem abs_rounded (q : ℚ) : |rounded q| = roundMag |q| := by
  unfold rounded
  split_ifs with hq
  · rw [abs_of_nonneg (roundMag_nonneg q), abs_of_nonneg hq]
  · rw [abs_neg, abs_of_nonneg (roundMag_nonneg _), abs_of_neg (not_le.mp hq)]

/-- A representable number is not moved. -/
theorem rounded_eq (h : Representable q) : rounded q = q := by
  have hpos : ∀ {q : ℚ}, 0 ≤ q → Representable q → roundMag q = q := by
    intro q hq h
    rcases hq.eq_or_lt with rfl | hq
    · exact roundMag_zero
    · obtain ⟨-, k, -, hk⟩ := h.exists_nat_mul hq
      exact OnGrid.roundMag_eq ⟨k, hk⟩
  unfold rounded
  split_ifs with hq
  · exact hpos hq h
  · rw [hpos (by linarith) h.neg, neg_neg]

/-- **Rounding errs by half a unit in the last place at most**, and by half
the smallest positive number near zero. -/
theorem abs_sub_rounded_le (q : ℚ) : |q - rounded q| ≤ max (|q| / 2 ^ 53) (2 ^ (-1075 : ℤ)) := by
  unfold rounded
  split_ifs with hq
  · rw [abs_of_nonneg hq]
    exact abs_sub_roundMag_le_max hq
  · have hneg : |q| = -q := abs_of_neg (not_le.mp hq)
    have hsub : q - -roundMag (-q) = -(-q - roundMag (-q)) := by ring
    rw [hsub, abs_neg, hneg]
    exact abs_sub_roundMag_le_max (by linarith)

/-! ## Unpacked numbers -/

/-- A number with a value is a zero or a mantissa on its grid. -/
theorem Unpacks.zero_or_finite (h : Unpacks u q) :
    (∃ s, u = .zero s ∧ q = 0) ∨
      ∃ s m e hm, u = .finite s m e hm ∧ q = s.apply m * 2 ^ e := by
  obtain ⟨hvalue, -⟩ := h
  cases u with
  | zero s => exact Or.inl ⟨s, rfl, by simpa [rat?] using hvalue.symm⟩
  | finite s m e hm => exact Or.inr ⟨s, m, e, hm, rfl, by simpa [rat?] using hvalue.symm⟩
  | infinity s => simp [rat?] at hvalue
  | notANumber => simp [rat?] at hvalue

/-- A zero of either sign stands for zero. -/
theorem unpacks_zero (s : Sign) : Unpacks (.zero s) 0 := ⟨rfl, trivial⟩

/-- Signs multiply as the numbers do that carry them. -/
theorem apply_mul (s t : Sign) (m n : ℤ) : (s * t).apply (m * n) = s.apply m * t.apply n := by
  cases s <;> cases t
  · exact (neg_mul_neg m n).symm
  · exact (neg_mul m n).symm
  · exact (mul_neg m n).symm
  · rfl

theorem apply_div (s t : Sign) : (s / t).apply 1 = s.apply 1 * t.apply 1 := by
  cases s <;> cases t <;> rfl

theorem abs_apply_one (s : Sign) : |((s.apply 1 : ℤ) : ℚ)| = 1 := by
  cases s <;> simp [Sign.apply]

/-- The opposite sign makes the opposite number. -/
theorem apply_neg (s : Sign) (n : ℤ) : (-s).apply n = -s.apply n := by
  cases s
  · exact (neg_neg n).symm
  · rfl

/-- The mantissas of two numbers have enough bits for their product. -/
theorem add_le_gridExponent {s t : Sign} {m n : ℕ} {e f : ℤ} {hm : 0 < m} {hn : 0 < n}
    (hu : Canonical (.finite s m e hm)) (hv : Canonical (.finite t n f hn)) :
    e + f ≤ gridExponent ((m * n : ℕ) * 2 ^ (e + f)) := by
  obtain ⟨hcu, -⟩ := (canonical_finite_iff hm).mp hu
  obtain ⟨hcv, -⟩ := (canonical_finite_iff hn).mp hv
  have hlog : m.log2 + n.log2 ≤ (m * n).log2 := by
    rw [Nat.le_log2 (by positivity), pow_add]
    exact Nat.mul_le_mul (Nat.log2_self_le hm.ne') (Nat.log2_self_le hn.ne')
  rw [gridExponent, log_scaled (by positivity)]
  omega

/-- Changing the sign changes the sign of the number. -/
theorem unpacks_neg (h : Unpacks u q) : Unpacks u.neg (-q) := by
  rcases h.zero_or_finite with ⟨s, rfl, rfl⟩ | ⟨s, m, e, hm, rfl, rfl⟩
  · rw [neg_zero]
    exact unpacks_zero _
  · refine ⟨?_, h.canonical⟩
    rw [UnpackedFloat.neg, rat?, apply_neg]
    push_cast
    rw [neg_mul]

/-- The number is the result of rounding a rational, whose exponent may be
too large to be packed. -/
structure Rounds (u : UnpackedFloat) (q : ℚ) : Prop where
  value : rat? u = some (rounded q)
  fits : Fits u

/-- A sign may be put on before or after rounding. -/
theorem rounded_apply (s : Sign) (hq : 0 ≤ q) :
    rounded (s.apply 1 * q) = s.apply 1 * roundMag q := by
  cases s with
  | positive => simpa [Sign.apply] using rounded_of_nonneg hq
  | negative => simp [Sign.apply, rounded_neg, rounded_of_nonneg hq]

/-- A finite number is representable. -/
theorem Unpacks.representable (h : Unpacks u q) : Representable q := by
  rcases h.zero_or_finite with ⟨s, rfl, rfl⟩ | ⟨s, m, e, hm, rfl, rfl⟩
  · exact ⟨0, 0, by norm_num, by norm_num, by norm_num [maxGridExponent], by simp⟩
  · obtain ⟨hcases, hmax⟩ := (canonical_finite_iff hm).mp h.canonical
    have hbits : m < 2 ^ 53 := (Nat.log2_lt hm.ne').mp (by omega)
    refine ⟨s.apply m, e, ?_, by omega, hmax, rfl⟩
    have habs : |s.apply (m : ℤ)| = m := by cases s <;> simp [Sign.apply]
    rw [habs]
    exact_mod_cast hbits

/-- A number of the format is its own rounding. -/
theorem Unpacks.rounds (h : Unpacks u q) : Rounds u q := by
  refine ⟨by rw [rounded_eq h.representable, h.value], ?_⟩
  have hcanonical := h.canonical
  cases u with
  | finite s m e hm => exact hcanonical.1
  | _ => trivial

/-- Below the largest power of two the exponent fits as well. -/
theorem Rounds.unpacks (h : Rounds u q) (hlt : |rounded q| < 2 ^ 1024) :
    Unpacks u (rounded q) := by
  obtain ⟨hvalue, hfits⟩ := h
  refine ⟨hvalue, ?_⟩
  cases u with
  | finite s m e hm =>
      have habs : (m : ℚ) * 2 ^ e < (2 : ℕ) ^ (1024 : ℤ) := by
        rw [rat?, Option.some.injEq] at hvalue
        have hpos : (0 : ℚ) < m * 2 ^ e := by positivity
        rw [← hvalue, cast_apply, mul_assoc, abs_mul] at hlt
        rw [abs_apply_one, one_mul, Int.cast_natCast, abs_of_pos hpos] at hlt
        exact_mod_cast hlt
      rw [Int.lt_zpow_iff_log_lt one_lt_two (by positivity)] at habs
      have hgrid : gridExponent ((m : ℚ) * 2 ^ e) = e := hfits
      refine ⟨hgrid, ?_⟩
      rw [gridExponent] at hgrid
      rw [maxGridExponent]
      omega
  | _ => trivial

/-- No number but zero is closer to zero than the finest grid. -/
theorem Representable.le_abs {q : ℚ} (h : Representable q) (hq : q ≠ 0) :
    2 ^ (-1074 : ℤ) ≤ |q| := by
  obtain ⟨k, e, -, he, -, rfl⟩ := h
  have hk : (1 : ℚ) ≤ |(k : ℚ)| := by
    have : k ≠ 0 := fun h => hq (by rw [h, Int.cast_zero, zero_mul])
    exact_mod_cast Int.one_le_abs this
  rw [abs_mul, abs_of_pos (by positivity : (0 : ℚ) < 2 ^ e)]
  calc (2 : ℚ) ^ (-1074 : ℤ) ≤ 2 ^ e := zpow_le_zpow_right₀ one_le_two he
    _ ≤ |(k : ℚ)| * 2 ^ e := le_mul_of_one_le_left (by positivity) hk

/-- Every number of the format lies below the limit of overflow. -/
theorem Representable.abs_lt (h : Representable q) : |q| < 2 ^ 1024 := by
  obtain ⟨k, e, hk, -, hmax, rfl⟩ := h
  have hk' : |(k : ℚ)| < 2 ^ 53 := by exact_mod_cast hk
  have hscale : (2 : ℚ) ^ e ≤ 2 ^ (971 : ℤ) := zpow_le_zpow_right₀ one_le_two hmax
  have hpos : (0 : ℚ) < 2 ^ e := by positivity
  calc |(k : ℚ) * 2 ^ e|
      = |(k : ℚ)| * 2 ^ e := by rw [abs_mul, abs_of_pos hpos]
    _ < 2 ^ 53 * 2 ^ e := by gcongr
    _ ≤ 2 ^ 53 * 2 ^ (971 : ℤ) := by gcongr
    _ = 2 ^ 1024 := by rw [← zpow_natCast, ← zpow_natCast, ← zpow_add₀ two_ne_zero]; norm_num

/-- A representable number survives rounding. -/
theorem Rounds.unpacks_of_representable (h : Rounds u q) (hq : Representable q) : Unpacks u q := by
  have hround := rounded_eq hq
  have hunpacks := h.unpacks (by rw [hround]; exact hq.abs_lt)
  rwa [hround] at hunpacks

/-- **The rounding step rounds.** It is given the bits of a number and how far
they are exact, on a grid that is no coarser than the one the number is to be
rounded to. -/
theorem rounds_roundWithAccuracy (s : Sign) {m : ℕ} (hm : 0 < m) {e : ℤ} {acc : Accuracy} {x : ℚ}
    (hx : Stands (.ofMantissaAndAccuracy m acc) x) (hle : e ≤ gridExponent (x * 2 ^ e)) :
    Rounds (roundWithAccuracy .binary64 s m e acc) (s.apply 1 * (x * 2 ^ e)) := by
  obtain ⟨hvalue, hfits⟩ := roundWithAccuracy_spec s hm hx hle
  have hxpos : 0 ≤ x := (Nat.cast_nonneg _).trans hx.le
  exact ⟨by rw [rounded_apply s (by positivity), hvalue], hfits⟩

/-- Rounding what has lost its mantissa below the finest grid. -/
theorem rounds_roundWithAccuracy_fraction (s : Sign) {e : ℤ} (he : e ≤ -1074) {acc : Accuracy}
    {x : ℚ} (hx : Stands (.ofMantissaAndAccuracy 0 acc) x) (hxpos : 0 < x) :
    Rounds (roundWithAccuracy .binary64 s 0 e acc) (s.apply 1 * (x * 2 ^ e)) := by
  obtain ⟨hvalue, hfits⟩ := roundWithAccuracy_fraction s he hx hxpos
  exact ⟨by rw [rounded_apply s (by positivity), hvalue], hfits⟩

/-- Rounding that may also supply missing bits. -/
theorem rounds_round (s : Sign) {m : ℕ} (hm : 0 < m) (e : ℤ) :
    Rounds (UnpackedFloat.round .binary64 s m e) (s.apply 1 * (m * 2 ^ e)) := by
  simp only [UnpackedFloat.round, targetExponent_eq hm]
  set t := gridExponent ((m : ℚ) * 2 ^ e) with ht
  rcases le_total t e with hle | hle
  · rw [decreaseExponent_eq m hle]
    have hsame : ((m * 2 ^ (e - t).toNat : ℕ) : ℚ) * 2 ^ t = m * 2 ^ e := by
      push_cast
      exact scaled_decrease m hle
    have hround := rounds_roundWithAccuracy s (m := m * 2 ^ (e - t).toNat) (by positivity)
      (stands_exact _) (e := t) (by rw [hsame])
    rwa [hsame] at hround
  · have hzero : (e - t).toNat = 0 := by omega
    simp only [decreaseExponent, hzero, Nat.shiftLeft_zero, Nat.cast_zero, sub_zero]
    exact rounds_roundWithAccuracy s hm (stands_exact m) hle

/-- An integer multiple of a power of two is rounded correctly, whatever its
sign. -/
theorem rounds_normalize (n e : ℤ) (zero : Sign) :
    Rounds (UnpackedFloat.normalize .binary64 n e zero) (n * 2 ^ e) := by
  unfold UnpackedFloat.normalize
  rcases lt_trichotomy n 0 with hn | rfl | hn
  · rw [compare_lt_iff_lt.mpr hn]
    obtain ⟨m, rfl⟩ : ∃ m : ℕ, n = -m := ⟨n.natAbs, by omega⟩
    have hround := rounds_round .negative (m := m) (by omega) e
    simpa [Sign.apply] using hround
  · rw [compare_eq_iff_eq.mpr rfl, Int.cast_zero, zero_mul]
    exact (unpacks_zero zero).rounds
  · rw [compare_gt_iff_gt.mpr hn]
    obtain ⟨m, rfl⟩ := Int.eq_ofNat_of_zero_le hn.le
    have hround := rounds_round .positive (m := m) (by omega) e
    simpa [Sign.apply] using hround

/-- **Sums are rounded correctly.** -/
theorem rounds_add (hu : Unpacks u p) (hv : Unpacks v q) :
    Rounds (UnpackedFloat.add .binary64 u v) (p + q) := by
  rcases hu.zero_or_finite with ⟨s, rfl, rfl⟩ | ⟨s, m, e, hm, rfl, rfl⟩
  · rw [zero_add]
    rcases hv.zero_or_finite with ⟨t, rfl, rfl⟩ | ⟨t, n, f, hn, rfl, rfl⟩
    · simp only [UnpackedFloat.add]
      split_ifs <;> exact (unpacks_zero _).rounds
    · exact hv.rounds
  rcases hv.zero_or_finite with ⟨t, rfl, rfl⟩ | ⟨t, n, f, hn, rfl, rfl⟩
  · rw [add_zero]
    exact hu.rounds
  simp only [UnpackedFloat.add, decreaseExponent_eq m (min_le_left e f),
    decreaseExponent_eq n (min_le_right e f)]
  have hsum : ((s.apply ((m * 2 ^ (e - min e f).toNat : ℕ) : ℤ) +
      t.apply ((n * 2 ^ (f - min e f).toNat : ℕ) : ℤ) : ℤ) : ℚ) * 2 ^ min e f =
      s.apply m * 2 ^ e + t.apply n * 2 ^ f := by
    push_cast
    rw [cast_apply, cast_apply t (_ * _), cast_apply s m, cast_apply t n]
    push_cast
    rw [add_mul, ← mul_assoc, ← mul_assoc, scaled_decrease _ (min_le_left e f),
      scaled_decrease _ (min_le_right e f)]
  rw [← hsum]
  exact rounds_normalize _ _ .positive

/-- A difference is the sum with the opposite. -/
theorem unpackedSub_eq (u v : UnpackedFloat) :
    UnpackedFloat.sub .binary64 u v = UnpackedFloat.add .binary64 u v.neg := by
  cases u <;> cases v <;>
    simp [UnpackedFloat.sub, UnpackedFloat.add, UnpackedFloat.neg, apply_neg, sub_eq_add_neg]

/-- **Differences are rounded correctly.** -/
theorem rounds_sub (hu : Unpacks u p) (hv : Unpacks v q) :
    Rounds (UnpackedFloat.sub .binary64 u v) (p - q) := by
  rw [unpackedSub_eq, sub_eq_add_neg]
  exact rounds_add hu (unpacks_neg hv)

/-- **Products are rounded correctly.** -/
theorem rounds_mul (hu : Unpacks u p) (hv : Unpacks v q) :
    Rounds (UnpackedFloat.mul .binary64 u v) (p * q) := by
  rcases hu.zero_or_finite with ⟨s, rfl, rfl⟩ | ⟨s, m, e, hm, rfl, rfl⟩
  · rw [zero_mul]
    rcases hv.zero_or_finite with ⟨t, rfl, rfl⟩ | ⟨t, n, f, hn, rfl, rfl⟩ <;>
      exact (unpacks_zero _).rounds
  rcases hv.zero_or_finite with ⟨t, rfl, rfl⟩ | ⟨t, n, f, hn, rfl, rfl⟩
  · rw [mul_zero]
    exact (unpacks_zero _).rounds
  have hproduct : (((s * t).apply 1 : ℤ) : ℚ) * ((m * n : ℕ) * 2 ^ (e + f)) =
      s.apply m * 2 ^ e * (t.apply n * 2 ^ f) := by
    have hsign := apply_mul s t 1 1
    rw [mul_one] at hsign
    rw [hsign, cast_apply s m, cast_apply t n, zpow_add₀ two_ne_zero]
    push_cast
    ring
  rw [← hproduct]
  exact rounds_roundWithAccuracy (s * t) (Nat.mul_pos hm hn) (stands_exact _)
    (add_le_gridExponent hu.canonical hv.canonical)

/-- The exponent of a quotient lies one below the difference of the
exponents, or on it. -/
theorem log_quotient {m n : ℕ} (hm : 0 < m) (hn : 0 < n) (e f : ℤ) :
    (m.log2 + e) - (n.log2 + f) - 1 ≤ Int.log 2 ((m : ℚ) * 2 ^ e / (n * 2 ^ f)) := by
  have hp : (0 : ℚ) < m * 2 ^ e := by positivity
  have hq : (0 : ℚ) < n * 2 ^ f := by positivity
  have hlow : ((2 : ℕ) : ℚ) ^ Int.log 2 ((m : ℚ) * 2 ^ e) ≤ m * 2 ^ e :=
    Int.zpow_log_le_self one_lt_two hp
  have hhigh : (n : ℚ) * 2 ^ f < ((2 : ℕ) : ℚ) ^ (Int.log 2 ((n : ℚ) * 2 ^ f) + 1) :=
    Int.lt_zpow_succ_log_self one_lt_two _
  rw [log_scaled hm] at hlow
  rw [log_scaled hn] at hhigh
  rw [← Int.zpow_le_iff_le_log one_lt_two (by positivity), le_div_iff₀ hq]
  refine (mul_le_mul_of_nonneg_left hhigh.le (by positivity)).trans (le_of_eq_of_le ?_ hlow)
  rw [← zpow_add₀ (by norm_num)]
  congr 1
  ring

/-- The core of a division: a mantissa with its residual bits that stand
for the quotient, on a grid that is fine enough.  Of a quotient below the
finest grid there may be nothing left but the residual bits. -/
theorem divCore_spec {m n : ℕ} (hm : 0 < m) (hn : 0 < n) (e f : ℤ) :
    ∃ k t acc x, divCore .binary64 m e n f = (k, t, acc) ∧ (0 < k ∨ t ≤ -1074) ∧ 0 < x ∧
      Stands (.ofMantissaAndAccuracy k acc) x ∧ x * 2 ^ t = m * 2 ^ e / (n * 2 ^ f) ∧
      t ≤ gridExponent (x * 2 ^ t) := by
  set q : ℚ := m * 2 ^ e / (n * 2 ^ f) with hq
  have hqpos : 0 < q := by positivity
  have hlog : (m.log2 + e) - (n.log2 + f) - 1 ≤ Int.log 2 q := log_quotient hm hn e f
  obtain ⟨t, ht⟩ : ∃ t, t = min (e - f) (Format.binary64.targetExponent
    (totalExponent m e - totalExponent n f)) := ⟨_, rfl⟩
  have htarget : Format.binary64.targetExponent (totalExponent m e - totalExponent n f) =
      max ((m.log2 + e) - (n.log2 + f) - 53) (-1074) := by
    simp only [Format.targetExponent, totalExponent, Format.mantissaBits, Format.minExponent]
    norm_num
    omega
  have htle : t ≤ e - f := ht ▸ min_le_left _ _
  have htlow : t ≤ max (Int.log 2 q - 52) (-1074) := by
    have := htarget ▸ ht ▸ min_le_right (e - f) _
    omega
  have htgrid : t ≤ gridExponent q := htlow
  set k := m * 2 ^ (e - f - t).toNat with hk
  have hvalue : ((k : ℕ) : ℚ) / n * 2 ^ t = q := by
    rw [hk, hq]
    push_cast
    rw [div_mul_eq_mul_div, scaled_decrease _ htle, zpow_sub₀ two_ne_zero]
    field_simp
  have hcore : divCore .binary64 m e n f = (k / n, t, accuracyOfFraction (k % n) n) := by
    simp only [divCore, ← ht, Nat.shiftLeft_eq, hk]
  refine ⟨k / n, t, _, _, hcore, ?_, by positivity, stands_fraction k hn, hvalue,
    hvalue ▸ htgrid⟩
  -- A quotient that reaches its grid is at least one.
  refine (le_or_gt t (Int.log 2 q)).imp (fun hreaches => ?_) fun hbelow => by omega
  have hone : (1 : ℚ) ≤ (k : ℚ) / n := by
    have hpow : (2 : ℚ) ^ t ≤ q := by
      exact_mod_cast (Int.zpow_le_iff_le_log one_lt_two hqpos (x := t)).mpr hreaches
    rw [← hvalue] at hpow
    exact le_of_mul_le_mul_right (by rwa [one_mul]) (by positivity : (0 : ℚ) < 2 ^ t)
  rw [le_div_iff₀ (by exact_mod_cast hn), one_mul] at hone
  exact Nat.div_pos (by exact_mod_cast hone) hn

/-- A quotient of two mantissas with any exponents. -/
theorem rounds_div_finite (s t : Sign) {m n : ℕ} (hm : 0 < m) (hn : 0 < n) (e f : ℤ) :
    Rounds (UnpackedFloat.div .binary64 (.finite s m e hm) (.finite t n f hn))
      (s.apply m * 2 ^ e / (t.apply n * 2 ^ f)) := by
  have hquotient : (s.apply m : ℚ) * 2 ^ e / (t.apply n * 2 ^ f) =
      ((s / t).apply 1 : ℤ) * (m * 2 ^ e / (n * 2 ^ f)) := by
    rw [apply_div, cast_apply s m, cast_apply t n]
    cases s <;> cases t <;> simp [Sign.apply, neg_div, div_neg]
  obtain ⟨k, g, acc, x, hcore, hk, hxpos, hstands, hvalue, hgrid⟩ := divCore_spec hm hn e f
  rw [hquotient, ← hvalue]
  have hdiv : UnpackedFloat.div .binary64 (.finite s m e hm) (.finite t n f hn) =
      roundWithAccuracy .binary64 (s / t) k g acc := by
    simp only [UnpackedFloat.div, hcore]
  rw [hdiv]
  rcases Nat.eq_zero_or_pos k with rfl | hkpos
  · exact rounds_roundWithAccuracy_fraction (s / t) (hk.resolve_left (lt_irrefl 0)) hstands hxpos
  · exact rounds_roundWithAccuracy (s / t) hkpos hstands hgrid

/-- A quotient by a number other than zero. -/
theorem rounds_div (hu : Unpacks u p) (hv : Unpacks v q) (hq : q ≠ 0) :
    Rounds (UnpackedFloat.div .binary64 u v) (p / q) := by
  rcases hv.zero_or_finite with ⟨t, rfl, rfl⟩ | ⟨t, n, f, hn, rfl, rfl⟩
  · exact absurd rfl hq
  rcases hu.zero_or_finite with ⟨s, rfl, rfl⟩ | ⟨s, m, e, hm, rfl, rfl⟩
  · rw [zero_div]
    exact (unpacks_zero (s / t)).rounds
  · exact rounds_div_finite s t hm hn e f

/-- A rational that is not negative can be rounded, however large. -/
theorem exists_rounds (hq : 0 ≤ q) : ∃ u, Rounds u q := by
  rcases hq.eq_or_lt with rfl | hpos
  · exact ⟨_, (unpacks_zero .positive).rounds⟩
  · have hnum : 0 < q.num.toNat := by
      have : 0 < q.num := Rat.num_pos.mpr hpos
      omega
    have hround := rounds_div_finite .positive .positive hnum q.pos 0 0
    have hvalue : (q.num.toNat : ℚ) / q.den = q := by
      have hcast : ((q.num.toNat : ℤ) : ℚ) = q.num := by
        rw [Int.toNat_of_nonneg (Rat.num_nonneg.mpr hq)]
      rw [← Int.cast_natCast, hcast, Rat.num_div_den]
    simp only [Sign.apply, Int.cast_natCast, zpow_zero, mul_one, hvalue] at hround
    exact ⟨_, hround⟩

end Binary64

end Univariate
