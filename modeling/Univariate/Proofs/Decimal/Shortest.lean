import Univariate.Decimal.Shortest
import Univariate.Proofs.Binary64.Nearest

/-!
# Shortest decimals read back

The shortest decimal of a number is looked for on one power of ten after
the other, among the numbers that round back to it.  That interval is given
by cross-multiplied fractions; its decimals exist from a power of ten on
that is fine enough, and the first power at which they do is the answer.

* `ReadBack.contains_iff`, `roundMag_of_contains` — the interval;
* `exists_hit` — a power of ten with a decimal in it is not passed over;
* `magnitude_spec`, `contains_of_fine` — where the search starts, and
  where it ends at the latest;
* `roundMag_shortest` — what is found rounds back to the number.
-/

namespace Univariate

namespace Binary64

variable {q : ℚ}

/-- The grid of a magnitude that has fifty-three bits on it, or fewer on
the finest grid. -/
theorem gridExponent_eq {e : ℤ} (hq : 0 < q) (hmin : -1074 ≤ e) (hhigh : q < 2 ^ 53 * 2 ^ e)
    (hlow : -1074 < e → 2 ^ 52 * 2 ^ e ≤ q) : gridExponent q = e := by
  have hpow : ∀ n : ℕ, (2 : ℚ) ^ n * 2 ^ e = ((2 : ℕ) : ℚ) ^ (n + e) := by
    intro n
    rw [Nat.cast_ofNat, zpow_add₀ two_ne_zero, zpow_natCast]
  rw [hpow, Int.lt_zpow_iff_log_lt one_lt_two hq] at hhigh
  rw [gridExponent]
  rcases hmin.eq_or_lt with rfl | hlt
  · omega
  · have hlog := hlow hlt
    rw [hpow, Int.zpow_le_iff_le_log one_lt_two hq] at hlog
    omega

/-- On the grid of a number, a mantissa within half a step is its nearest.
Ends count for even mantissas. -/
theorem roundMag_eq_of_grid {m : ℕ} {e : ℤ} (hgrid : gridExponent q = e) (hq : 0 ≤ q)
    (hlow : ((m : ℚ) - 1 / 2) * 2 ^ e ≤ q) (hhigh : q ≤ ((m : ℚ) + 1 / 2) * 2 ^ e)
    (hstrict : m % 2 = 1 → ((m : ℚ) - 1 / 2) * 2 ^ e < q ∧ q < ((m : ℚ) + 1 / 2) * 2 ^ e) :
    roundMag q = m * 2 ^ e := by
  have hpow : (0 : ℚ) < 2 ^ e := by positivity
  rw [← le_div_iff₀ hpow] at hlow
  rw [← div_le_iff₀ hpow] at hhigh
  rw [← lt_div_iff₀ hpow, ← div_lt_iff₀ hpow] at hstrict
  have hnear : |q / 2 ^ e - m| ≤ 1 / 2 := abs_le.mpr ⟨by linarith, by linarith⟩
  have htie : |q / 2 ^ e - m| = 1 / 2 → m % 2 = 0 := by
    intro heq
    by_contra hodd
    obtain ⟨hlt, hgt⟩ := hstrict (by omega)
    rcases abs_cases (q / 2 ^ e - m) with ⟨habs, -⟩ | ⟨habs, -⟩ <;> linarith
  rw [roundMag, hgrid, nearestEven_eq (by positivity) hnear htie]

/-- Below the first mantissa of a binade the grid is twice as fine, and what
is within half a step of that grid is carried up to the mantissa. -/
theorem roundMag_eq_of_carry {e : ℤ} (hmin : -1074 < e) (hlow : (2 ^ 52 - 1 / 4) * 2 ^ e ≤ q)
    (hhigh : q < 2 ^ 52 * 2 ^ e) : roundMag q = 2 ^ 52 * 2 ^ e := by
  have hpow : (0 : ℚ) < 2 ^ (e - 1) := by positivity
  have hhalf : (2 : ℚ) ^ e = 2 * 2 ^ (e - 1) := by
    rw [zpow_sub_one₀ two_ne_zero]
    ring
  rw [hhalf] at hlow hhigh ⊢
  have hq : 0 < q := lt_of_lt_of_le (by positivity) hlow
  have hgrid : gridExponent q = e - 1 :=
    gridExponent_eq hq (by omega) (by linarith) fun _ => by linarith
  have hround := roundMag_eq_of_grid (m := 2 ^ 53) hgrid hq.le (by push_cast; linarith)
    (by push_cast; linarith) fun hodd => absurd hodd (by norm_num)
  rw [hround]
  push_cast
  ring

/-- **What is within half a unit rounds to the mantissa.**  Ends count for
even mantissas.  The gap below the first mantissa of a binade is half as
wide. -/
theorem roundMag_eq_of_near {m : ℕ} (hm : 0 < m) {e : ℤ}
    (hgrid : gridExponent ((m : ℚ) * 2 ^ e) = e) {below : ℚ}
    (hbelow : below = if m = 2 ^ 52 ∧ -1074 < e then 1 / 4 else 1 / 2)
    (hlow : ((m : ℚ) - below) * 2 ^ e ≤ q) (hhigh : q ≤ ((m : ℚ) + 1 / 2) * 2 ^ e)
    (hstrict : m % 2 = 1 → ((m : ℚ) - below) * 2 ^ e < q ∧ q < ((m : ℚ) + 1 / 2) * 2 ^ e) :
    roundMag q = m * 2 ^ e := by
  have hpow : (0 : ℚ) < 2 ^ e := by positivity
  have hmin : -1074 ≤ e := hgrid ▸ neg_1074_le_gridExponent _
  have hmbits : m < 2 ^ 53 := by
    have h := div_grid_lt ((m : ℚ) * 2 ^ e)
    rw [hgrid, mul_div_cancel_right₀ _ hpow.ne'] at h
    exact_mod_cast h
  have hmone : (1 : ℚ) ≤ m := by exact_mod_cast hm
  have hbelowle : below ≤ 1 / 2 := by rw [hbelow]; split_ifs <;> norm_num
  have hq : 0 < q := lt_of_lt_of_le (mul_pos (by linarith) hpow) hlow
  have hqhigh : q < 2 ^ 53 * 2 ^ e := by
    have hm' : (m : ℚ) + 1 ≤ 2 ^ 53 := by exact_mod_cast hmbits
    exact hhigh.trans_lt (mul_lt_mul_of_pos_right (by linarith) hpow)
  by_cases hsame : -1074 < e → 2 ^ 52 * 2 ^ e ≤ q
  · -- The number is on the grid of the mantissa.
    have hwider : ((m : ℚ) - 1 / 2) * 2 ^ e ≤ (m - below) * 2 ^ e :=
      mul_le_mul_of_nonneg_right (by linarith) hpow.le
    exact roundMag_eq_of_grid (gridExponent_eq hq hmin hqhigh hsame) hq.le (hwider.trans hlow)
      hhigh fun hodd => (hstrict hodd).imp_left hwider.trans_lt
  · -- The number is below the binade of the mantissa, which then is the first one.
    obtain ⟨hfine, hlast⟩ := Classical.not_imp.mp hsame
    rw [not_le] at hlast
    have hmlow : 2 ^ 52 ≤ m := by
      have h := le_div_grid (q := (m : ℚ) * 2 ^ e) (by positivity) (hgrid.symm ▸ hfine)
      rw [hgrid, mul_div_cancel_right₀ _ hpow.ne'] at h
      exact_mod_cast h
    have hfirst : m = 2 ^ 52 := by
      by_contra hne
      have hm' : (2 : ℚ) ^ 52 + 1 ≤ m := by exact_mod_cast (by omega : 2 ^ 52 + 1 ≤ m)
      have hless := hlow.trans_lt hlast
      rw [mul_lt_mul_iff_left₀ hpow] at hless
      linarith
    have hmcast : (m : ℚ) = 2 ^ 52 := by exact_mod_cast hfirst
    rw [hbelow, if_pos ⟨hfirst, hfine⟩, hmcast] at hlow
    rw [hmcast]
    exact roundMag_eq_of_carry hfine hlow hlast

end Binary64

namespace Decimal

/-- The rational number that digits with an exponent write. -/
def Scaled.toRat (s : Scaled) : ℚ := s.digits * 10 ^ s.exponent

/-- Both sides of a comparison have been multiplied by the same number. -/
theorem exists_crossMultiply (n : ℕ) (g : ℤ) (m : ℕ) {denominator : ℕ} (hd : 0 < denominator) :
    ∃ s : ℚ, 0 < s ∧ ((crossMultiply n g m denominator).1 : ℚ) = s * (n * 10 ^ g) ∧
      ((crossMultiply n g m denominator).2 : ℚ) = s * (m / denominator) := by
  have hd' : (0 : ℚ) < denominator := by exact_mod_cast hd
  unfold crossMultiply
  split_ifs with hg
  · obtain ⟨k, rfl⟩ := Int.eq_ofNat_of_zero_le hg
    refine ⟨denominator, hd', ?_, ?_⟩
    · rw [Int.toNat_natCast, Nat.pow_eq, zpow_natCast]
      push_cast
      ring
    · field_simp
  · obtain ⟨k, hk⟩ : ∃ k : ℕ, g = -k := ⟨(-g).toNat, by omega⟩
    subst hk
    refine ⟨denominator * 10 ^ k, by positivity, ?_, ?_⟩
    · rw [zpow_neg, zpow_natCast]
      push_cast
      field_simp
    · rw [neg_neg, Int.toNat_natCast, Nat.pow_eq]
      push_cast
      field_simp

/-- Comparing the two products compares the decimal with the fraction from
below. -/
theorem crossMultiply_le_iff (n : ℕ) (g : ℤ) (m : ℕ) {denominator : ℕ} (hd : 0 < denominator) :
    (crossMultiply n g m denominator).1 ≤ (crossMultiply n g m denominator).2 ↔
      (n : ℚ) * 10 ^ g ≤ m / denominator := by
  obtain ⟨s, hs, h1, h2⟩ := exists_crossMultiply n g m hd
  rw [← Nat.cast_le (α := ℚ), h1, h2, mul_le_mul_iff_right₀ hs]

/-- Comparing the two products compares the decimal with the fraction from
above. -/
theorem le_crossMultiply_iff (n : ℕ) (g : ℤ) (m : ℕ) {denominator : ℕ} (hd : 0 < denominator) :
    (crossMultiply n g m denominator).2 ≤ (crossMultiply n g m denominator).1 ↔
      (m : ℚ) / denominator ≤ n * 10 ^ g := by
  obtain ⟨s, hs, h1, h2⟩ := exists_crossMultiply n g m hd
  rw [← Nat.cast_le (α := ℚ), h1, h2, mul_le_mul_iff_right₀ hs]

/-- The digits lie in the interval. -/
theorem ReadBack.contains_iff (r : ReadBack) (hd : 0 < r.denominator) (n : ℕ) (g : ℤ) :
    r.contains n g = true ↔
      ((r.low : ℚ) / r.denominator ≤ n * 10 ^ g ∧ (n : ℚ) * 10 ^ g ≤ r.high / r.denominator) ∧
        (r.closed = false → (r.low : ℚ) / r.denominator < n * 10 ^ g ∧
          (n : ℚ) * 10 ^ g < r.high / r.denominator) := by
  have h1 := le_crossMultiply_iff n g r.low hd
  have h2 := crossMultiply_le_iff n g r.high hd
  have h3 := not_congr (crossMultiply_le_iff n g r.low hd)
  have h4 := not_congr (le_crossMultiply_iff n g r.high hd)
  rw [not_le, not_le] at h3 h4
  unfold ReadBack.contains
  cases hclosed : r.closed
  · simp only [Bool.false_eq_true, if_false, Bool.and_eq_true, decide_eq_true_eq, h3, h4,
      true_implies]
    exact ⟨fun h => ⟨⟨h.1.le, h.2.le⟩, h⟩, fun h => h.2⟩
  · simp only [if_true, Bool.and_eq_true, decide_eq_true_eq, h1, h2]
    simp

/-! ## The interval of a number -/

/-- The magnitude of a positive number, in the form that bits hold. -/
structure IsMagnitude (d : Dyadic) : Prop where
  pos : 0 < d.mantissa
  grid : Binary64.gridExponent (d.mantissa * 2 ^ d.exponent) = d.exponent

/-- The gap below a number, in units of its last place. -/
def gapBelow (d : Dyadic) : ℚ :=
  if d.mantissa = 2 ^ 52 ∧ -1074 < d.exponent then 1 / 4 else 1 / 2

/-- The interval as rational numbers. -/
theorem ReadBack.ofDyadic_eq (d : Dyadic) (hpos : 0 < d.mantissa) :
    let r := ReadBack.ofDyadic d
    0 < r.denominator ∧ (r.value : ℚ) / r.denominator = d.mantissa * 2 ^ d.exponent ∧
      (r.low : ℚ) / r.denominator = (d.mantissa - gapBelow d) * 2 ^ d.exponent ∧
      (r.high : ℚ) / r.denominator = (d.mantissa + 1 / 2) * 2 ^ d.exponent := by
  intro r
  have hunit := Dyadic.numerator_div_denominator ⟨false, 1, d.exponent - 2⟩
  have hden : 0 < r.denominator := Dyadic.denominator_pos ⟨false, 1, d.exponent - 2⟩
  have hquarter : (2 : ℚ) ^ (d.exponent - 2) = 2 ^ d.exponent / 4 := by
    rw [zpow_sub₀ two_ne_zero]
    norm_num
  rw [hquarter, Nat.cast_one, one_mul] at hunit
  have hscale : ∀ k : ℕ, ((k * (⟨false, 1, d.exponent - 2⟩ : Dyadic).numerator : ℕ) : ℚ) /
      r.denominator = k / 4 * 2 ^ d.exponent := by
    intro k
    rw [Nat.cast_mul, mul_div_assoc]
    refine (congrArg _ hunit).trans ?_
    ring
  refine ⟨hden, (hscale _).trans ?_, (hscale _).trans ?_, (hscale _).trans ?_⟩
  · push_cast
    ring
  · have hgap : ((4 * d.mantissa - (if d.mantissa = Nat.pow 2 52 ∧ -1074 < d.exponent then 1
        else 2) : ℕ) : ℚ) = 4 * (d.mantissa - gapBelow d) := by
      rw [Nat.cast_sub (by split_ifs <;> omega), gapBelow, Nat.pow_eq]
      split_ifs <;> push_cast <;> ring
    rw [hgap]
    ring
  · push_cast
    ring

/-- **What lies in the interval reads back.** -/
theorem roundMag_of_contains {d : Dyadic} (hd : IsMagnitude d) {n : ℕ} {g : ℤ}
    (h : (ReadBack.ofDyadic d).contains n g = true) :
    Binary64.roundMag (n * 10 ^ g) = d.mantissa * 2 ^ d.exponent := by
  obtain ⟨hden, -, hlow, hhigh⟩ := ReadBack.ofDyadic_eq d hd.pos
  rw [ReadBack.contains_iff _ hden, hlow, hhigh] at h
  obtain ⟨⟨hge, hle⟩, hstrict⟩ := h
  refine Binary64.roundMag_eq_of_near hd.pos hd.grid rfl hge hle fun hodd => hstrict ?_
  exact decide_eq_false (by omega)

/-! ## Neighbours on a grid -/

/-- A hit is on its grid and reads back. -/
theorem hit?_eq_some {r : ReadBack} {tie : Tie} {g : ℤ} {s : Scaled}
    (h : r.hit? tie g = some s) : s.exponent = g ∧ r.contains s.digits g = true := by
  simp only [ReadBack.hit?] at h
  split_ifs at h with hboth hup hlower hupper
  · rw [Bool.and_eq_true] at hboth
    obtain rfl := Option.some.inj h
    exact ⟨rfl, hboth.2⟩
  · rw [Bool.and_eq_true] at hboth
    obtain rfl := Option.some.inj h
    exact ⟨rfl, hboth.1⟩
  · obtain rfl := Option.some.inj h
    exact ⟨rfl, hlower⟩
  · obtain rfl := Option.some.inj h
    exact ⟨rfl, hupper⟩

/-- A decimal of the interval that is less than a step away from the value
makes a hit of its grid. -/
theorem exists_hit {r : ReadBack} (hden : 0 < r.denominator) (tie : Tie) {n : ℕ} {g : ℤ}
    (hn : r.contains n g = true)
    (hnear : |(r.value : ℚ) / r.denominator / 10 ^ g - n| < 1) :
    ∃ s, r.hit? tie g = some s := by
  obtain ⟨s, hs, hunit, hvalue⟩ := exists_crossMultiply 1 g r.value hden
  have hten : (0 : ℚ) < 10 ^ g := by positivity
  set w : ℚ := (r.value : ℚ) / r.denominator / 10 ^ g with hw
  have hfloor : (crossMultiply 1 g r.value r.denominator).2 /
      (crossMultiply 1 g r.value r.denominator).1 = ⌊w⌋₊ := by
    rw [← Nat.floor_div_eq_div (K := ℚ), hunit, hvalue, Nat.cast_one, one_mul,
      mul_div_mul_left _ _ hs.ne']
  have hwpos : 0 ≤ w := by positivity
  have hlow := Nat.floor_le hwpos
  have hhigh := Nat.lt_floor_add_one w
  obtain ⟨hleft, hright⟩ := abs_lt.mp hnear
  have hneighbour : n = ⌊w⌋₊ ∨ n = ⌊w⌋₊ + 1 := by
    have h1 : (n : ℚ) < ⌊w⌋₊ + 2 := by linarith
    have h2 : (⌊w⌋₊ : ℚ) < n + 1 := by linarith
    have h1' : n < ⌊w⌋₊ + 2 := by exact_mod_cast h1
    have h2' : ⌊w⌋₊ < n + 1 := by exact_mod_cast h2
    omega
  simp only [ReadBack.hit?, hfloor]
  rcases hneighbour with rfl | rfl <;> split_ifs <;> exact ⟨_, rfl⟩

/-! ## The first grid -/

/-- Every number has a digit. -/
theorem digitCount_pos (n : ℕ) : 0 < digitCount n := Nat.length_toDigits_pos

/-- A number lies below the power of ten with as many zeros as it has digits. -/
theorem lt_ten_pow_digitCount (n : ℕ) : n < 10 ^ digitCount n :=
  (Nat.length_toDigits_le_iff (by norm_num) (digitCount_pos n)).mp le_rfl

/-- A number does not lie below the power of ten with one zero less. -/
theorem ten_pow_digitCount_le {n : ℕ} (hn : 0 < n) : 10 ^ (digitCount n - 1) ≤ n := by
  by_contra hlt
  rw [not_le] at hlt
  rcases Nat.eq_zero_or_pos (digitCount n - 1) with hzero | hpos
  · rw [hzero] at hlt
    omega
  · have := (Nat.length_toDigits_le_iff (by norm_num) hpos).mpr hlt
    rw [← digitCount] at this
    omega

/-- The powers of ten between which a number lies, by its digits. -/
theorem zpow_digitCount_bounds {n : ℕ} (hn : 0 < n) :
    (10 : ℚ) ^ ((digitCount n : ℤ) - 1) ≤ n ∧ (n : ℚ) < 10 ^ (digitCount n : ℤ) := by
  have hexp : ((digitCount n - 1 : ℕ) : ℤ) = (digitCount n : ℤ) - 1 := by
    have := digitCount_pos n
    omega
  rw [← hexp, zpow_natCast, zpow_natCast]
  exact ⟨by exact_mod_cast ten_pow_digitCount_le hn, by exact_mod_cast lt_ten_pow_digitCount n⟩

/-- The magnitude is the count of digits before the point. -/
theorem magnitude_spec {r : ReadBack} (hden : 0 < r.denominator) (hvalue : 0 < r.value) :
    (10 : ℚ) ^ (r.magnitude - 1) ≤ r.value / r.denominator ∧
      (r.value : ℚ) / r.denominator < 10 ^ r.magnitude := by
  have hd : (0 : ℚ) < r.denominator := by exact_mod_cast hden
  have hten : (10 : ℚ) ≠ 0 := by norm_num
  obtain ⟨hvlow, hvhigh⟩ := zpow_digitCount_bounds hvalue
  obtain ⟨hdlow, hdhigh⟩ := zpow_digitCount_bounds hden
  set guess : ℤ := (digitCount r.value : ℤ) - digitCount r.denominator with hguess
  have hlow : (10 : ℚ) ^ (guess - 1) ≤ r.value / r.denominator := by
    rw [le_div_iff₀ hd]
    refine (mul_le_mul_of_nonneg_left hdhigh.le (by positivity)).trans (le_of_eq_of_le ?_ hvlow)
    rw [← zpow_add₀ hten]
    congr 1
    omega
  have hhigh : (r.value : ℚ) / r.denominator < 10 ^ (guess + 1) := by
    rw [div_lt_iff₀ hd]
    refine hvhigh.trans_le (le_of_eq_of_le ?_ (mul_le_mul_of_nonneg_left hdlow (by positivity)))
    rw [← zpow_add₀ hten]
    congr 1
    omega
  have hone := crossMultiply_le_iff 1 guess r.value hden
  rw [Nat.cast_one, one_mul] at hone
  simp only [ReadBack.magnitude, ← hguess, hone]
  split_ifs with h
  · exact ⟨by rwa [add_sub_cancel_right], hhigh⟩
  · exact ⟨hlow, not_le.mp h⟩

/-- A grid of sixteen places below the first digit is fine enough. -/
theorem contains_of_fine {d : Dyadic} (hd : IsMagnitude d) {g : ℤ} {n : ℕ}
    (hfine : (10 : ℚ) ^ (g + 16) ≤ d.mantissa * 2 ^ d.exponent)
    (hnear : |(d.mantissa : ℚ) * 2 ^ d.exponent / 10 ^ g - n| ≤ 1 / 2) :
    (ReadBack.ofDyadic d).contains n g = true := by
  obtain ⟨hden, -, hlow, hhigh⟩ := ReadBack.ofDyadic_eq d hd.pos
  have hpow : (0 : ℚ) < 2 ^ d.exponent := by positivity
  have hten : (0 : ℚ) < 10 ^ g := by positivity
  have hbits : (d.mantissa : ℚ) < 2 ^ 53 := by
    have h := Binary64.div_grid_lt ((d.mantissa : ℚ) * 2 ^ d.exponent)
    rwa [hd.grid, mul_div_cancel_right₀ _ hpow.ne'] at h
  have hgap : (d.mantissa : ℚ) / (2 * 10 ^ 16) < gapBelow d := by
    unfold gapBelow
    split_ifs with hfirst
    · rw [hfirst.1]
      norm_num
    · rw [div_lt_iff₀ (by norm_num)]
      linarith
  have hgaple : gapBelow d ≤ 1 / 2 := by unfold gapBelow; split_ifs <;> norm_num
  -- Half a step of the decimal grid is less than the narrower gap.
  have hstep : |(n : ℚ) * 10 ^ g - d.mantissa * 2 ^ d.exponent| < gapBelow d * 2 ^ d.exponent := by
    rw [zpow_add₀ (by norm_num), zpow_ofNat] at hfine
    calc |(n : ℚ) * 10 ^ g - d.mantissa * 2 ^ d.exponent|
        = |(d.mantissa : ℚ) * 2 ^ d.exponent / 10 ^ g - n| * 10 ^ g := by
          rw [← abs_of_pos hten, ← abs_mul, abs_of_pos hten, sub_mul, div_mul_cancel₀ _ hten.ne',
            abs_sub_comm]
      _ ≤ 1 / 2 * 10 ^ g := by gcongr
      _ ≤ 1 / 2 * (d.mantissa * 2 ^ d.exponent / 10 ^ 16) := by
          gcongr
          rwa [le_div_iff₀ (by norm_num)]
      _ = (d.mantissa : ℚ) / (2 * 10 ^ 16) * 2 ^ d.exponent := by ring
      _ < gapBelow d * 2 ^ d.exponent := by gcongr
  obtain ⟨hleft, hright⟩ := abs_lt.mp hstep
  have hupper : gapBelow d * 2 ^ d.exponent ≤ 1 / 2 * 2 ^ d.exponent := by gcongr
  have hstrict : (d.mantissa - gapBelow d) * 2 ^ d.exponent < n * 10 ^ g ∧
      (n : ℚ) * 10 ^ g < (d.mantissa + 1 / 2) * 2 ^ d.exponent := by
    constructor <;> linarith
  rw [ReadBack.contains_iff _ hden, hlow, hhigh]
  exact ⟨⟨hstrict.1.le, hstrict.2.le⟩, fun _ => hstrict⟩

/-- The same value with an exponent that is no smaller. -/
theorem trim_spec (fuel : ℕ) (s : Scaled) :
    (s.trim fuel).toRat = s.toRat ∧ s.exponent ≤ (s.trim fuel).exponent := by
  induction fuel generalizing s with
  | zero => exact ⟨rfl, le_rfl⟩
  | succ fuel ih =>
      rw [Scaled.trim]
      split_ifs with hzeros
      · obtain ⟨hvalue, hexp⟩ := ih ⟨s.digits / 10, s.exponent + 1⟩
        refine ⟨hvalue.trans ?_, by dsimp only at hexp; omega⟩
        have hdigits : s.digits = s.digits / 10 * 10 := by omega
        have hcast : (s.digits : ℚ) = ((s.digits / 10 : ℕ) : ℚ) * 10 := by exact_mod_cast hdigits
        rw [Scaled.toRat, Scaled.toRat, zpow_add_one₀ (by norm_num), hcast]
        ring
      · exact ⟨rfl, le_rfl⟩

/-- The grids that `shortest` tries, the widest first. -/
def grids (r : ReadBack) : List ℤ := (List.range maxDigits).map fun (n : ℕ) => r.magnitude - 1 - n

/-- The grids go from the first digit to the seventeenth. -/
theorem mem_grids {r : ReadBack} {g : ℤ} (hhigh : g < r.magnitude) (hlow : r.magnitude - 17 ≤ g) :
    g ∈ grids r :=
  List.mem_map.mpr ⟨(r.magnitude - 1 - g).toNat,
    List.mem_range.mpr (by rw [maxDigits]; omega), by omega⟩

/-- The grids are tried from the coarsest to the finest. -/
theorem pairwise_grids (r : ReadBack) : (grids r).Pairwise (· > ·) := by
  refine List.pairwise_map.mpr (List.pairwise_lt_range.imp fun h => ?_)
  omega

/-- A hit on one of the grids makes a first hit, on a grid that is no
finer. -/
theorem exists_first_hit {r : ReadBack} {tie : Tie} {g : ℤ} (hg : g ∈ grids r)
    (hhit : ∃ s, r.hit? tie g = some s) :
    ∃ s, (grids r).findSome? (r.hit? tie) = some s ∧ g ≤ s.exponent ∧
      r.contains s.digits s.exponent = true := by
  obtain ⟨t, ht⟩ := hhit
  have hsome : ((grids r).findSome? (r.hit? tie)).isSome = true :=
    List.findSome?_isSome_iff.mpr ⟨g, hg, by rw [ht]; rfl⟩
  obtain ⟨s, hs⟩ := Option.isSome_iff_exists.mp hsome
  obtain ⟨before, a, after, hsplit, ha, hnone⟩ := List.findSome?_eq_some_iff.mp hs
  obtain ⟨hexp, hcontains⟩ := hit?_eq_some ha
  refine ⟨s, hs, ?_, hexp ▸ hcontains⟩
  have hdescending := pairwise_grids r
  rw [hsplit] at hdescending hg
  rcases List.mem_append.mp hg with hbefore | hafter
  · rw [hnone g hbefore] at ht
    cases ht
  · rw [hexp]
    rcases List.mem_cons.mp hafter with rfl | hafter
    · exact le_rfl
    · exact (List.rel_of_pairwise_cons (List.pairwise_append.mp hdescending).2.1 hafter).le

/-- The shortest decimal is the hit on the first grid that has one, without
zeros at its end. -/
theorem shortest_of_first_hit {d : Dyadic} {tie : Tie} {s : Scaled}
    (h : (grids (ReadBack.ofDyadic d)).findSome? ((ReadBack.ofDyadic d).hit? tie) = some s) :
    shortest tie d = s.trim maxDigits := by
  unfold grids at h
  unfold shortest
  simp only [h]

/-- Whatever is hit first reads back, and trimming keeps its value. -/
theorem shortest_of_hit {d : Dyadic} (hd : IsMagnitude d) {tie : Tie} {g : ℤ}
    (hg : g ∈ grids (ReadBack.ofDyadic d))
    (hhit : ∃ s, (ReadBack.ofDyadic d).hit? tie g = some s) :
    Binary64.roundMag (shortest tie d).toRat = d.mantissa * 2 ^ d.exponent ∧
      g ≤ (shortest tie d).exponent := by
  obtain ⟨s, hs, hge, hcontains⟩ := exists_first_hit hg hhit
  obtain ⟨htrim, hexp⟩ := trim_spec maxDigits s
  rw [shortest_of_first_hit hs, htrim]
  exact ⟨roundMag_of_contains hd hcontains, hge.trans hexp⟩

/-- The first digit of a number stands below its magnitude. -/
theorem magnitude_bounds {d : Dyadic} (hd : IsMagnitude d) :
    (10 : ℚ) ^ ((ReadBack.ofDyadic d).magnitude - 1) ≤ d.mantissa * 2 ^ d.exponent ∧
      (d.mantissa : ℚ) * 2 ^ d.exponent < 10 ^ (ReadBack.ofDyadic d).magnitude := by
  obtain ⟨hden, hvalue, -, -⟩ := ReadBack.ofDyadic_eq d hd.pos
  have hpos : 0 < (ReadBack.ofDyadic d).value := by
    refine Nat.pos_of_ne_zero fun hzero => ?_
    rw [hzero, Nat.cast_zero, zero_div] at hvalue
    have := hd.pos
    exact absurd hvalue (ne_of_lt (by positivity))
  rw [← hvalue]
  exact magnitude_spec hden hpos

/-- The last grid is fine enough for every number. -/
theorem exists_hit_last {d : Dyadic} (hd : IsMagnitude d) (tie : Tie) :
    ∃ s, (ReadBack.ofDyadic d).hit? tie ((ReadBack.ofDyadic d).magnitude - 17) = some s := by
  obtain ⟨hden, hvalue, -, -⟩ := ReadBack.ofDyadic_eq d hd.pos
  obtain ⟨hlow, -⟩ := magnitude_bounds hd
  obtain ⟨g, hg⟩ : ∃ g, g = (ReadBack.ofDyadic d).magnitude - 17 := ⟨_, rfl⟩
  obtain ⟨w, hw⟩ : ∃ w : ℚ, w = d.mantissa * 2 ^ d.exponent / 10 ^ g := ⟨_, rfl⟩
  have hwpos : 0 ≤ w := by rw [hw]; positivity
  have hnear : |w - (⌊w + 1 / 2⌋₊ : ℕ)| ≤ 1 / 2 := by
    have h1 := Nat.floor_le (show 0 ≤ w + 1 / 2 by positivity)
    have h2 := Nat.lt_floor_add_one (w + 1 / 2)
    rw [abs_le]
    constructor <;> linarith
  have hfine : (10 : ℚ) ^ (g + 16) ≤ d.mantissa * 2 ^ d.exponent := by
    rwa [hg, show (ReadBack.ofDyadic d).magnitude - 17 + 16 =
      (ReadBack.ofDyadic d).magnitude - 1 by ring]
  rw [← hg]
  refine exists_hit hden tie (contains_of_fine hd hfine (hw ▸ hnear)) ?_
  rw [hvalue, ← hw]
  exact hnear.trans_lt (by norm_num)

/-- An integer lies on the grid of the units. -/
theorem exists_hit_units {d : Dyadic} (hd : IsMagnitude d) (tie : Tie) {n : ℕ}
    (hn : (d.mantissa : ℚ) * 2 ^ d.exponent = n) :
    ∃ s, (ReadBack.ofDyadic d).hit? tie 0 = some s := by
  obtain ⟨hden, hvalue, hlow, hhigh⟩ := ReadBack.ofDyadic_eq d hd.pos
  have hgap : 0 < gapBelow d := by unfold gapBelow; split_ifs <;> norm_num
  have hpow : (0 : ℚ) < 2 ^ d.exponent := by positivity
  have hstrict : (d.mantissa - gapBelow d) * 2 ^ d.exponent < n * 10 ^ (0 : ℤ) ∧
      (n : ℚ) * 10 ^ (0 : ℤ) < (d.mantissa + 1 / 2) * 2 ^ d.exponent := by
    rw [zpow_zero, mul_one, ← hn]
    constructor <;> gcongr <;> linarith
  refine exists_hit hden tie (n := n) ?_ ?_
  · rw [ReadBack.contains_iff _ hden, hlow, hhigh]
    exact ⟨⟨hstrict.1.le, hstrict.2.le⟩, fun _ => hstrict⟩
  · rw [hvalue, hn]
    simp

/-- **The shortest decimal reads back.** -/
theorem roundMag_shortest {d : Dyadic} (hd : IsMagnitude d) (tie : Tie) :
    Binary64.roundMag (shortest tie d).toRat = d.mantissa * 2 ^ d.exponent :=
  (shortest_of_hit hd (mem_grids (by omega) le_rfl) (exists_hit_last hd tie)).1

/-- The shortest decimal of an integer has no places behind the point. -/
theorem shortest_exponent_nonneg {d : Dyadic} (hd : IsMagnitude d) (tie : Tie) {n : ℕ}
    (hn : (d.mantissa : ℚ) * 2 ^ d.exponent = n) : 0 ≤ (shortest tie d).exponent := by
  by_cases htop : (ReadBack.ofDyadic d).magnitude ≤ 17
  · have hmag : 0 < (ReadBack.ofDyadic d).magnitude := by
      by_contra hneg
      have hone : (1 : ℚ) ≤ n := by
        have : (0 : ℚ) < n := by
          rw [← hn]
          have := hd.pos
          positivity
        exact_mod_cast this
      have hlt := (magnitude_bounds hd).2
      rw [hn] at hlt
      have := zpow_le_one_of_nonpos₀ (by norm_num : (1 : ℚ) ≤ 10) (not_lt.mp hneg)
      linarith
    exact (shortest_of_hit hd (mem_grids hmag (by omega)) (exists_hit_units hd tie hn)).2
  · have := (shortest_of_hit hd (mem_grids (by omega) le_rfl) (exists_hit_last hd tie)).2
    omega

end Decimal

end Univariate
