import Univariate.Proofs.Binary64.Decoding

/-!
# The nearest number

What the operations answer with, said of numbers rather than of their
unpacked forms.  `Nearest x q` says that `x` is the number nearest to `q`:
finite and equal to `rounded q`, or infinite where that is too large.

* `Exactly.nearest_add` and its neighbours — the four operations;
* `Nearest.exactly`, `Nearest.infinite` — the two outcomes;
* `nearest_infinity`, `nearest_zero` — what is out of range;
* `nearest_ofScientific`, `nearest_ofNat`, `exists_tenths` — scientific
  literals, integers of any size, and powers of ten;
* `Exactly.le_iff`, `isFinite_iff` — comparisons and finiteness;
* `exists_share`, `rounded_share_lt`, `abs_sub_rounded_le_add` — a tolerance
  times a magnitude, and how far rounding moves it.
-/

namespace Univariate

namespace Binary64

open Float.Model Float.Model.UnpackedFloat

/-- The number is what a single rounding makes of a rational. -/
def Nearest (x : Float) (q : ℚ) : Prop :=
  ∃ u, Rounds u q ∧ x = Float.ofModel (Float.Model.pack u)

variable {x y : Float} {p q : ℚ}

/-! ## The two outcomes -/

/-- What is nearest to a number stands for its rounding, below the limit of
overflow. -/
theorem Nearest.exactly (h : Nearest x q) (hlt : |rounded q| < 2 ^ 1024) :
    Exactly x (rounded q) := by
  obtain ⟨u, hu, rfl⟩ := h
  exact Exactly.of_unpacks (hu.unpacks hlt)

/-- What is nearest to a number of the format stands for it. -/
theorem Nearest.exactly_of_representable (h : Nearest x q) (hq : Representable q) :
    Exactly x q := by
  obtain ⟨u, hu, rfl⟩ := h
  exact Exactly.of_unpacks (hu.unpacks_of_representable hq)

/-- An exponent out of range is packed as the infinity of the sign. -/
theorem Nearest.overflows (h : Nearest x q) (hge : 2 ^ 1024 ≤ |rounded q|) :
    ∃ s : Sign, x = Float.ofModel (Float.Model.pack (.infinity s)) ∧
      (0 : ℚ) < s.apply 1 * rounded q := by
  obtain ⟨u, ⟨hvalue, hfits⟩, rfl⟩ := h
  have hpos : 0 < |rounded q| := lt_of_lt_of_le (by positivity) hge
  cases u with
  | infinity s => simp [rat?] at hvalue
  | notANumber => simp [rat?] at hvalue
  | zero s =>
      rw [rat?, Option.some.injEq] at hvalue
      exact absurd hvalue.symm (abs_pos.mp hpos)
  | finite s m e hm =>
      rw [rat?, Option.some.injEq, cast_apply, Int.cast_natCast, mul_assoc] at hvalue
      have hmag : (0 : ℚ) < m * 2 ^ e := by positivity
      have habs : |rounded q| = m * 2 ^ e := by
        rw [← hvalue, abs_mul, abs_apply_one, one_mul, abs_of_pos hmag]
      have hlog : (1024 : ℤ) ≤ Int.log 2 ((m : ℚ) * 2 ^ e) := by
        rw [← Int.zpow_le_iff_le_log one_lt_two hmag, ← habs, Nat.cast_ofNat]
        exact (zpow_natCast (2 : ℚ) 1024).trans_le hge
      have hgrid : gridExponent ((m : ℚ) * 2 ^ e) = e := hfits
      rw [gridExponent] at hgrid
      have hfield : (2 : ℕ) ^ Format.binary64.exponentBits ≤
          (e + (Format.binary64.exponentBias : ℤ) + (52 : ℕ)).toNat + 1 := by
        norm_num [Format.exponentBias]
        omega
      have hpack : UnpackedFloat.pack .binary64 (.finite s m e hm) =
          packedInfinity .binary64 s := by
        simp only [UnpackedFloat.pack]
        rw [if_pos hfield]
      have hmodel : Float.Model.pack (.finite s m e hm) = Float.Model.pack (.infinity s) := by
        simp only [Float.Model.pack, hpack]
        rfl
      refine ⟨s, by rw [hmodel], ?_⟩
      rw [← hvalue]
      cases s <;> simpa [Sign.apply] using hmag

/-- Above the numbers there is infinity. -/
theorem Nearest.infinite (h : Nearest x q) (hge : 2 ^ 1024 ≤ rounded q) : x = infinity := by
  have hpos : 0 < rounded q := lt_of_lt_of_le (by positivity) hge
  obtain ⟨s, rfl, hsign⟩ := h.overflows (hge.trans (le_abs_self _))
  cases s with
  | positive => rfl
  | negative =>
      rw [Sign.apply, Int.cast_neg, neg_mul] at hsign
      norm_num at hsign
      exact absurd hsign hpos.not_gt

/-- What is finite has not overflowed. -/
theorem Nearest.abs_lt_of_isFinite (h : Nearest x q) (hx : x.isFinite = true) :
    |rounded q| < 2 ^ 1024 := by
  by_contra hge
  obtain ⟨s, rfl, -⟩ := h.overflows (not_lt.mp hge)
  cases s <;> cases hx

/-- What stands for a number is nearest to it. -/
theorem Exactly.nearest (h : Exactly x q) : Nearest x q := by
  refine ⟨x.toModel.unpack, h.unpacks.rounds, ?_⟩
  rcases x with ⟨⟨⟨b⟩, hb⟩⟩
  have hbits : UnpackedFloat.pack .binary64 (UnpackedFloat.unpack .binary64 b) = b := pack_unpack hb
  simp only [Float.Model.pack, Float.Model.unpack, hbits]

/-! ## Operations -/

namespace Exactly

/-- **A sum is nearest to the sum.** -/
theorem nearest_add (hx : Exactly x p) (hy : Exactly y q) : Nearest (x + y) (p + q) :=
  ⟨_, rounds_add hx.unpacks hy.unpacks, rfl⟩

/-- **A difference is nearest to the difference.** -/
theorem nearest_sub (hx : Exactly x p) (hy : Exactly y q) : Nearest (x - y) (p - q) :=
  ⟨_, rounds_sub hx.unpacks hy.unpacks, rfl⟩

/-- **A product is nearest to the product.** -/
theorem nearest_mul (hx : Exactly x p) (hy : Exactly y q) : Nearest (x * y) (p * q) :=
  ⟨_, rounds_mul hx.unpacks hy.unpacks, rfl⟩

/-- **A quotient is nearest to the quotient.** -/
theorem nearest_div (hx : Exactly x p) (hy : Exactly y q) (hq : q ≠ 0) :
    Nearest (x / y) (p / q) :=
  ⟨_, rounds_div hx.unpacks hy.unpacks hq, rfl⟩

/-- Comparing binary numbers compares what they stand for. -/
theorem le_iff (hx : Exactly x p) (hy : Exactly y q) : Float.le x y = true ↔ p ≤ q := by
  have hle : Float.le x y = (x.toModel.unpack.compare y.toModel.unpack).any (·.isLE) :=
    Bool.decide_coe _
  rw [hle, unpacks_compare hx.unpacks hy.unpacks, Option.any_some, ← not_lt,
    ← compare_gt_iff_gt]
  cases compare p q <;> simp

end Exactly

/-- **A binary number is finite** exactly if it stands for a number. -/
theorem isFinite_iff (x : Float) : x.isFinite = true ↔ ∃ q, Exactly x q := by
  have hfinite : x.isFinite = x.toModel.unpack.isFinite := rfl
  unfold Exactly
  rw [hfinite]
  cases x.toModel.unpack <;> simp [UnpackedFloat.isFinite, rat?]

/-! ## Tolerances -/

/-- Rounding moves a number by very little, with a constant in place of the
width of the finest grid. -/
theorem abs_sub_rounded_le_add (q : ℚ) : |q - rounded q| ≤ |q| / 2 ^ 53 + 1 / 10 ^ 30 := by
  have hfine : (2 : ℚ) ^ (-1075 : ℤ) ≤ 1 / 10 ^ 30 :=
    (zpow_le_zpow_right₀ one_le_two (by norm_num : (-1075 : ℤ) ≤ -100)).trans (by norm_num)
  have hpos : 0 ≤ |q| / 2 ^ 53 := by positivity
  refine (abs_sub_rounded_le q).trans (max_le ?_ ?_)
  · linarith [show (0 : ℚ) ≤ 1 / 10 ^ 30 by positivity]
  · linarith

theorem Exactly.max (hx : Exactly x p) (hy : Exactly y q) :
    Exactly (Scalar.max x y) (max p q) := by
  have hself : Float.beq x x = true := (hx.beq_iff hx).mpr rfl
  unfold Scalar.max
  simp only [Scalar.lt, Scalar.eq, hself, Bool.not_true, Bool.or_false, hx.lt_iff hy]
  split_ifs with h
  · rwa [max_eq_right h.le]
  · rwa [max_eq_left (not_lt.mp h)]

/-- A share of a number at least one. -/
theorem exists_share {t : Float} {τ : ℚ} (ht : Exactly t τ) (hτ : 0 ≤ τ) (hτ' : τ ≤ 1)
    (hx : Exactly x p) (hp : 0 ≤ p) : Exactly (t * x) (rounded (τ * p)) := by
  refine (ht.nearest_mul hx).exactly ?_
  have hle : τ * p ≤ p := mul_le_of_le_one_left hp hτ'
  have hmono := rounded_mono hle
  rw [rounded_eq hx.representable] at hmono
  rw [rounded_of_nonneg (by positivity), abs_of_nonneg (roundMag_nonneg _),
    ← rounded_of_nonneg (by positivity)]
  exact (hmono.trans (le_abs_self p)).trans_lt hx.representable.abs_lt

/-- A small share of a number is smaller than the number also after
rounding, even where it is rounded to the finest grid. -/
theorem rounded_share_lt {τ : ℚ} (hτ : 0 ≤ τ) (hτ' : τ ≤ 1 / 4) (hq : Representable q)
    (hpos : 0 < q) : rounded (τ * q) < q := by
  have hlow := hq.le_abs hpos.ne'
  rw [abs_of_pos hpos] at hlow
  set share := τ * q with hshare
  have hshare0 : 0 ≤ share := mul_nonneg hτ hpos.le
  have hsmall : share ≤ q / 4 := by
    rw [hshare, div_eq_inv_mul, ← one_div]
    exact mul_le_mul_of_nonneg_right hτ' hpos.le
  have hfine : (2 : ℚ) ^ (-1075 : ℤ) ≤ q / 2 := by
    rw [le_div_iff₀ two_pos, ← zpow_add_one₀ two_ne_zero]
    exact hlow
  have hcoarse : share / 2 ^ 53 ≤ q / 2 :=
    (div_le_self hshare0 (by norm_num)).trans (by linarith)
  have herror := (abs_le.mp (abs_sub_rounded_le share)).1
  rw [abs_of_nonneg hshare0] at herror
  linarith [max_le hcoarse hfine]

/-! ## Decimals -/

/-- The first power of two out of range is not rounded down into it. -/
theorem two_pow_le_rounded (h : 2 ^ 1024 ≤ q) : 2 ^ 1024 ≤ rounded q := by
  have hgrid : gridExponent ((2 : ℚ) ^ 1024) = 972 := by
    have hlog : Int.log 2 ((2 : ℚ) ^ 1024) = 1024 := by
      have := Int.log_zpow (R := ℚ) one_lt_two (1024 : ℤ)
      rwa [Nat.cast_ofNat, show (1024 : ℤ) = ((1024 : ℕ) : ℤ) from rfl, zpow_natCast] at this
    rw [gridExponent, hlog]
    norm_num
  have honGrid : OnGrid ((2 : ℚ) ^ 1024) := by
    refine ⟨2 ^ 52, ?_⟩
    rw [hgrid, Nat.cast_pow, Nat.cast_ofNat, show (972 : ℤ) = ((972 : ℕ) : ℤ) from rfl,
      zpow_natCast, ← pow_add]
  have hmono := rounded_mono h
  rwa [rounded_of_nonneg (by positivity), honGrid.roundMag_eq] at hmono

/-- Infinity is the nearest number to what is out of range. -/
theorem nearest_infinity (h : 2 ^ 1024 ≤ q) : Nearest infinity q := by
  have hq : 0 ≤ q := le_trans (by positivity) h
  obtain ⟨u, hu⟩ := exists_rounds hq
  have hinfinite : Float.ofModel (Float.Model.pack u) = infinity :=
    Nearest.infinite ⟨u, hu, rfl⟩ (two_pow_le_rounded h)
  exact ⟨u, hu, hinfinite.symm⟩

/-- Zero is the nearest number to what is less than half of the smallest
one. -/
theorem nearest_zero (hq : 0 ≤ q) (h : q < 2 ^ (-1075 : ℤ)) : Nearest 0 q := by
  rcases hq.eq_or_lt with rfl | hpos
  · exact exactly_zero.nearest
  have hlog : Int.log 2 q < -1075 := by
    rw [← Int.lt_zpow_iff_log_lt one_lt_two hpos]
    exact_mod_cast h
  have hgrid : gridExponent q = -1074 := max_eq_right (by omega)
  have hhalf : q / 2 ^ (-1074 : ℤ) < 1 / 2 := by
    rw [div_lt_iff₀ (by positivity), one_div, ← zpow_neg_one, ← zpow_add₀ two_ne_zero]
    exact h
  have hfloor : ⌊q / 2 ^ (-1074 : ℤ)⌋₊ = 0 := Nat.floor_eq_zero.mpr (by linarith)
  have hround : rounded q = 0 := by
    rw [rounded_of_nonneg hq, roundMag, hgrid, nearestEven, hfloor, Nat.cast_zero, sub_zero,
      if_pos hhalf, Nat.cast_zero, zero_mul]
  exact ⟨.zero .positive, ⟨by rw [hround]; rfl, trivial⟩, rfl⟩

/-- The table of powers of ten. -/
theorem exactly_powerOfTen {k : ℕ} (hk : k < Float.exactlyRepresentablePowersOfTen.size) :
    Exactly Float.exactlyRepresentablePowersOfTen[k] (10 ^ k) := by
  have htable : ∀ k, (hk : k < Float.exactlyRepresentablePowersOfTen.size) →
      toInt? Float.exactlyRepresentablePowersOfTen[k] = some (10 ^ k) := by decide +kernel
  exact_mod_cast (toInt?_eq_some_iff _ _).mp (htable k hk)

/-- A scientific literal that the unpacked arithmetic works out, with an
exponent that it does not refuse to form a power of. -/
theorem rounds_ofScientific {m : ℕ} (hm : m ≠ 0) {e : ℤ} (hhigh : e ≤ 2 ^ 11)
    (hlow : -(2 ^ 11 + m.log2) ≤ e) :
    Rounds (UnpackedFloat.ofScientific .binary64 m e) (m * 10 ^ e) := by
  have hpos : 0 < m := Nat.pos_of_ne_zero hm
  have hbits : (2 : ℤ) ^ Format.binary64.exponentBits = 2 ^ 11 := rfl
  unfold UnpackedFloat.ofScientific
  rw [dif_neg hm, if_neg (by omega), if_neg (by omega)]
  split_ifs with hsign
  · -- The mantissa is handed over with as many zero bits as it may lose.
    obtain ⟨k, rfl⟩ := Int.eq_ofNat_of_zero_le hsign
    have hproduct : 0 < m * 2 ^ 53 * 10 ^ k := by positivity
    have hvalue : ((m * 2 ^ 53 * 10 ^ k : ℕ) : ℚ) * 2 ^ (-53 : ℤ) = m * 10 ^ (k : ℤ) := by
      have hcancel : (2 : ℚ) ^ 53 * 2 ^ (-53 : ℤ) = 1 := by norm_num
      rw [Nat.cast_mul, Nat.cast_mul, Nat.cast_pow, Nat.cast_pow, Nat.cast_ofNat, Nat.cast_ofNat,
        zpow_natCast, mul_right_comm, mul_assoc (m : ℚ), hcancel, mul_one]
    have hone : (1 : ℚ) ≤ m * 10 ^ (k : ℤ) := by
      rw [zpow_natCast]
      exact_mod_cast Nat.mul_pos hpos (by positivity : 0 < 10 ^ k)
    have hgrid : (-53 : ℤ) ≤ gridExponent ((m : ℚ) * 10 ^ (k : ℤ)) := by
      have : 0 ≤ Int.log 2 ((m : ℚ) * 10 ^ (k : ℤ)) :=
        (Int.zpow_le_iff_le_log one_lt_two (by positivity)).mp (by simpa using hone)
      rw [gridExponent]
      omega
    have hround := rounds_roundWithAccuracy .positive hproduct (stands_exact _)
      (hvalue.symm ▸ hgrid)
    rw [hvalue] at hround
    have hsame : m <<< Format.binary64.mantissaBits * 10 ^ (k : ℤ).toNat = m * 2 ^ 53 * 10 ^ k := by
      rw [Nat.shiftLeft_eq, Int.toNat_natCast]
      rfl
    simp only [UnpackedFloat.mul, hsame, add_zero]
    rwa [Sign.apply, Int.cast_one, one_mul] at hround
  · obtain ⟨k, hk⟩ := Int.eq_ofNat_of_zero_le (by omega : 0 ≤ -e)
    have hround := rounds_div_finite .positive .positive hpos (by positivity : 0 < 10 ^ k) 0 0
    have hvalue : (m : ℚ) * 10 ^ e = m / 10 ^ k := by
      rw [show e = -(k : ℤ) by omega, zpow_neg, zpow_natCast, div_eq_mul_inv]
    rw [hvalue]
    simpa [hk, Sign.apply] using hround

/-- **A scientific literal is converted to the nearest number.** -/
theorem nearest_ofScientific {m : ℕ} {negative : Bool} {k : ℕ} {e : ℤ}
    (he : (if negative then -(k : ℤ) else k) = e) (hhigh : e ≤ 2 ^ 11)
    (hlow : -(2 ^ 11 + m.log2) ≤ e) :
    Nearest (Float.ofScientific m negative k) (m * 10 ^ e) := by
  unfold Float.ofScientific
  by_cases hfast : m < 2 ^ 53 ∧ k ≤ 22
  · -- Mantissa and power of ten are numbers themselves.
    rw [dif_pos hfast, ← he]
    have hsize : k < Float.exactlyRepresentablePowersOfTen.size := by
      have : Float.exactlyRepresentablePowersOfTen.size = 23 := rfl
      omega
    have hmantissa := exactly_toFloat hfast.1
    have hpower := exactly_powerOfTen hsize
    cases negative with
    | true =>
        rw [if_pos rfl, if_pos rfl, zpow_neg, zpow_natCast, ← div_eq_mul_inv]
        exact hmantissa.nearest_div hpower (by positivity)
    | false =>
        rw [if_neg Bool.false_ne_true, if_neg Bool.false_ne_true, zpow_natCast]
        exact hmantissa.nearest_mul hpower
  · have hexponent : (if negative then Int.negOfNat k else Int.ofNat k) = e := by
      rw [← he]
      cases negative <;> simp [Int.negOfNat_eq]
    rw [dif_neg hfast]
    dsimp only
    rw [hexponent]
    by_cases hm : m = 0
    · subst hm
      rw [Nat.cast_zero, zero_mul]
      exact ⟨_, (unpacks_zero .positive).rounds, rfl⟩
    · exact ⟨_, rounds_ofScientific hm hhigh hlow, rfl⟩

/-- A natural number of any size is converted to the nearest number. -/
theorem nearest_ofNat (n : ℕ) : Nearest (Float.ofNat n) n := by
  have h : Nearest (Float.ofScientific n false 0) (n * 10 ^ (0 : ℤ)) :=
    nearest_ofScientific rfl (by norm_num) (by omega)
  rwa [zpow_zero, mul_one] at h

/-- A negative power of ten, up to rounding. -/
theorem exists_tenths {k : ℕ} (hk : k ≤ 22) :
    ∃ τ, Exactly (Float.ofScientific 1 true k) τ ∧
      |1 / 10 ^ k - τ| ≤ 1 / 10 ^ k / 2 ^ 53 + 1 / 10 ^ 30 := by
  have hnearest : Nearest (Float.ofScientific 1 true k) (1 / 10 ^ k) := by
    have h : Nearest (Float.ofScientific 1 true k) ((1 : ℕ) * 10 ^ (-(k : ℤ))) :=
      nearest_ofScientific rfl (by omega) (by omega)
    simpa using h
  have hpos : (0 : ℚ) ≤ 1 / 10 ^ k := by positivity
  have hle : (1 : ℚ) / 10 ^ k ≤ 1 := by
    rw [div_le_one (by positivity)]
    exact one_le_pow₀ (by norm_num)
  have hclose := abs_sub_rounded_le_add (1 / 10 ^ k)
  rw [abs_of_nonneg hpos] at hclose
  refine ⟨_, hnearest.exactly ?_, hclose⟩
  have hone := rounded_mono hle
  have hrep : Representable (1 : ℚ) := by exact_mod_cast representable_int (n := 1) (by norm_num)
  rw [rounded_eq hrep] at hone
  rw [rounded_of_nonneg hpos] at hone ⊢
  rw [abs_of_nonneg (roundMag_nonneg _)]
  exact hone.trans_lt (one_lt_pow₀ one_lt_two (by norm_num))

/-- A millionth, up to rounding. -/
theorem exists_millionth :
    ∃ τ, Exactly (Float.ofScientific 1 true 6) τ ∧ 1 / 10 ^ 6 - 1 / 10 ^ 15 ≤ τ ∧
      τ ≤ 1 / 10 ^ 6 + 1 / 10 ^ 15 := by
  obtain ⟨τ, hτ, hclose⟩ := exists_tenths (k := 6) (by norm_num)
  obtain ⟨hlow, hhigh⟩ := abs_le.mp (hclose.trans (by norm_num : _ ≤ (1 : ℚ) / 10 ^ 15))
  exact ⟨τ, hτ, by linarith, by linarith⟩

end Binary64

end Univariate
