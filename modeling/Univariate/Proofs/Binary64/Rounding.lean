import Univariate.Proofs.Binary64.Grid

/-!
# Rounding to nearest

Arithmetic hands rounding a mantissa with two residual bits: whether the
first bit that is missing is set, and whether any later one is.  That is
all it needs to find the nearest point of the grid, and of two equally near
ones the even one.  If the mantissa is carried to one bit too many, it is
shifted once more, which loses nothing.

* `nearestEven` — the nearest natural number;
* `Stands` — what a mantissa with residual bits stands for, kept by shifts;
* `roundMag`, `rounded` — the nearest point of the grid;
* `roundMag_mono`, `abs_sub_roundMag_le_max` — rounding keeps the order and
  moves by half the width of the grid at most;
* `roundWithAccuracy_spec` — rounding a mantissa answers with that point.
-/

namespace Univariate

namespace Binary64

open Float.Model Float.Model.UnpackedFloat

/-! ## The nearest integer -/

/-- The natural number nearest to a magnitude, of two equally near ones the
even one. -/
def nearestEven (x : ℚ) : ℕ :=
  if x - ⌊x⌋₊ < 1 / 2 then ⌊x⌋₊
  else if x - ⌊x⌋₊ = 1 / 2 then ⌊x⌋₊ + ⌊x⌋₊ % 2
  else ⌊x⌋₊ + 1

variable {x y : ℚ} {n : ℕ}

/-- Rounding to an integer goes up by one at most. -/
theorem nearestEven_le (x : ℚ) : nearestEven x ≤ ⌊x⌋₊ + 1 := by
  unfold nearestEven
  split_ifs <;> omega

/-- Rounding to an integer does not go below the floor. -/
theorem floor_le_nearestEven (x : ℚ) : ⌊x⌋₊ ≤ nearestEven x := by
  unfold nearestEven
  split_ifs <;> omega

/-- What is nearest, and even in a tie, is the answer. -/
theorem nearestEven_eq (hx : 0 ≤ x) (hnear : |x - n| ≤ 1 / 2)
    (htie : |x - n| = 1 / 2 → n % 2 = 0) : nearestEven x = n := by
  have hlow := Nat.floor_le hx
  have hhigh := Nat.lt_floor_add_one x
  obtain ⟨hleft, hright⟩ := abs_le.mp hnear
  have hbelow : n ≤ ⌊x⌋₊ + 1 := by
    have : (n : ℚ) < ⌊x⌋₊ + 2 := by linarith
    have : n < ⌊x⌋₊ + 2 := by exact_mod_cast this
    omega
  have habove : ⌊x⌋₊ ≤ n := by
    have : (⌊x⌋₊ : ℚ) < n + 1 := by linarith
    have : ⌊x⌋₊ < n + 1 := by exact_mod_cast this
    omega
  unfold nearestEven
  rcases Nat.le_succ_iff.mp hbelow with hle | hsucc
  · obtain rfl : n = ⌊x⌋₊ := le_antisymm hle habove
    split_ifs with hlt heq
    · rfl
    · have := htie (by rw [heq]; norm_num)
      omega
    · exact absurd (lt_of_le_of_ne hright heq) hlt
  · have hcast : (n : ℚ) = ⌊x⌋₊ + 1 := by exact_mod_cast hsucc
    split_ifs with hlt heq
    · rw [hcast] at hleft
      linarith
    · have := htie (by rw [hcast, abs_sub_comm, abs_of_pos] <;> linarith)
      omega
    · exact hsucc.symm

/-- An integer is its own rounding. -/
theorem nearestEven_natCast (n : ℕ) : nearestEven (n : ℚ) = n :=
  nearestEven_eq (Nat.cast_nonneg n) (by norm_num) (by norm_num)

/-- The nearest integer is half a unit away at most. -/
theorem abs_sub_nearestEven_le (hx : 0 ≤ x) : |x - nearestEven x| ≤ 1 / 2 := by
  have hlow := Nat.floor_le hx
  have hhigh := Nat.lt_floor_add_one x
  unfold nearestEven
  split_ifs with hlt heq
  · rw [abs_of_nonneg] <;> linarith
  · rcases Nat.mod_two_eq_zero_or_one ⌊x⌋₊ with h | h <;> rw [h] <;> push_cast <;> rw [abs_le] <;>
      constructor <;> linarith
  · push_cast
    rw [abs_le]
    constructor <;> linarith [lt_of_le_of_ne (not_lt.mp hlt) (Ne.symm heq)]

/-- Rounding to an integer keeps the order. -/
theorem nearestEven_mono (hxy : x ≤ y) : nearestEven x ≤ nearestEven y := by
  rcases (Nat.floor_mono hxy).lt_or_eq with hlt | heq
  · exact (nearestEven_le x).trans (Nat.succ_le_of_lt hlt |>.trans (floor_le_nearestEven y))
  · have hsub : x - ⌊y⌋₊ ≤ y - ⌊y⌋₊ := sub_le_sub_right hxy _
    unfold nearestEven
    rw [heq]
    by_cases hbelow : y - ⌊y⌋₊ < 1 / 2
    · rw [if_pos hbelow, if_pos (hsub.trans_lt hbelow)]
    rw [if_neg hbelow]
    by_cases hhalf : y - ⌊y⌋₊ = 1 / 2
    · rw [if_pos hhalf]
      split_ifs with hx hx'
      · omega
      · exact le_rfl
      · exact absurd (le_antisymm (hsub.trans hhalf.le) (not_lt.mp hx)) hx'
    · rw [if_neg hhalf]
      split_ifs <;> omega

/-! ## Reading a mantissa with its residual bits -/

/-- The magnitude that a mantissa stands for whose residual bits have not
been dropped yet. -/
def Stands (em : ExtendedMantissa) (x : ℚ) : Prop :=
  match em.roundBit, em.stickyBit with
  | false, false => x = em.mantissa
  | false, true => em.mantissa < x ∧ x < em.mantissa + 1 / 2
  | true, false => x = em.mantissa + 1 / 2
  | true, true => em.mantissa + 1 / 2 < x ∧ x < em.mantissa + 1

variable {em : ExtendedMantissa}

/-- The bits kept are no larger than the number. -/
theorem Stands.le (h : Stands em x) : (em.mantissa : ℚ) ≤ x := by
  rcases em with ⟨m, r, s⟩
  cases r <;> cases s <;> simp only [Stands] at h ⊢ <;> linarith

/-- What the bits kept leave out is less than a unit. -/
theorem Stands.lt (h : Stands em x) : x < em.mantissa + 1 := by
  rcases em with ⟨m, r, s⟩
  cases r <;> cases s <;> simp only [Stands] at h ⊢ <;> linarith

/-- The bits kept are the whole part. -/
theorem Stands.floor_eq (h : Stands em x) : ⌊x⌋₊ = em.mantissa :=
  (Nat.floor_eq_iff ((Nat.cast_nonneg _).trans h.le)).mpr ⟨h.le, h.lt⟩

/-- **The residual bits are all that rounding needs.** -/
theorem Stands.roundedMantissa_eq (h : Stands em x) : em.roundedMantissa = nearestEven x := by
  unfold nearestEven
  rw [h.floor_eq]
  rcases em with ⟨m, r, s⟩
  cases r <;> cases s <;> simp only [Stands] at h
  · have hlt : x - m < 1 / 2 := by rw [h]; norm_num
    rw [if_pos hlt]
    rfl
  · have hlt : x - m < 1 / 2 := by linarith
    rw [if_pos hlt]
    rfl
  · have heq : x - m = 1 / 2 := by rw [h]; ring
    rw [if_neg heq.not_lt, if_pos heq]
    rfl
  · have hlt : 1 / 2 < x - m := by linarith
    rw [if_neg hlt.not_gt, if_neg hlt.ne']
    rfl

/-- **Shifting one bit out** halves the number that stands behind the bits. -/
theorem Stands.shiftRightOne (h : Stands em x) : Stands em.shiftRightOne (x / 2) := by
  rcases em with ⟨m, r, s⟩
  have hdiv : ((m % 2 : ℕ) : ℚ) + 2 * ((m / 2 : ℕ) : ℚ) = m := by
    exact_mod_cast Nat.mod_add_div m 2
  rcases Nat.mod_two_eq_zero_or_one m with hm | hm <;> rw [hm] at hdiv <;> push_cast at hdiv <;>
    cases r <;> cases s <;> simp only [Stands] at h <;>
    simp [Stands, ExtendedMantissa.shiftRightOne, hm] <;>
      first | linarith | constructor <;> linarith

/-- Shifting bits out divides by the power of two. -/
theorem Stands.shiftRight (h : Stands em x) (n : ℕ) : Stands (em >>> n) (x / 2 ^ n) := by
  change Stands (n.repeat ExtendedMantissa.shiftRightOne em) _
  induction n with
  | zero => simpa [Nat.repeat] using h
  | succ n ih =>
      rw [Nat.repeat, pow_succ, ← div_div]
      exact ih.shiftRightOne

/-- An integer stands for itself. -/
theorem stands_exact (m : ℕ) : Stands (.ofMantissaAndAccuracy m .exact) m := rfl

/-- A quotient with remainder. -/
theorem stands_fraction (m : ℕ) {n : ℕ} (hn : 0 < n) :
    Stands (.ofMantissaAndAccuracy (m / n) (accuracyOfFraction (m % n) n)) ((m : ℚ) / n) := by
  have hpos : (0 : ℚ) < n := by exact_mod_cast hn
  have hdiv : (m : ℚ) / n = ((m / n : ℕ) : ℚ) + ((m % n : ℕ) : ℚ) / n := by
    have hparts : (m : ℚ) = n * ((m / n : ℕ) : ℚ) + ((m % n : ℕ) : ℚ) := by
      exact_mod_cast (Nat.div_add_mod m n).symm
    rw [div_eq_iff hpos.ne', add_mul, div_mul_cancel₀ _ hpos.ne', ← mul_comm (n : ℚ)]
    exact hparts
  have hlt : ((m % n : ℕ) : ℚ) / n < 1 := (div_lt_one hpos).mpr (by exact_mod_cast Nat.mod_lt m hn)
  rw [accuracyOfFraction, hdiv]
  split_ifs with hzero
  · rw [hzero, Nat.cast_zero, zero_div, add_zero]
    exact stands_exact _
  · have hrest : (0 : ℚ) < ((m % n : ℕ) : ℚ) / n := by positivity
    rcases lt_trichotomy (2 * (m % n)) n with h | h | h
    · rw [compare_lt_iff_lt.mpr h]
      have : ((m % n : ℕ) : ℚ) / n < 1 / 2 := by
        rw [div_lt_div_iff₀ hpos two_pos, one_mul, mul_comm]
        exact_mod_cast h
      exact show ((m / n : ℕ) : ℚ) < _ ∧ _ < ((m / n : ℕ) : ℚ) + 1 / 2 from
        ⟨by linarith, by linarith⟩
    · rw [compare_eq_iff_eq.mpr h]
      have : ((m % n : ℕ) : ℚ) / n = 1 / 2 := by
        rw [div_eq_div_iff hpos.ne' two_ne_zero, one_mul, mul_comm]
        exact_mod_cast h
      rw [this]
      rfl
    · rw [compare_gt_iff_gt.mpr h]
      have : 1 / 2 < ((m % n : ℕ) : ℚ) / n := by
        rw [div_lt_div_iff₀ two_pos hpos, one_mul, mul_comm ((m % n : ℕ) : ℚ)]
        exact_mod_cast h
      exact show ((m / n : ℕ) : ℚ) + 1 / 2 < _ ∧ _ < ((m / n : ℕ) : ℚ) + 1 from
        ⟨by linarith, by linarith⟩

/-! ## Rounding to the grid -/

/-- A magnitude rounded to the nearest point of its grid, ties to even. -/
def roundMag (q : ℚ) : ℚ := nearestEven (q / 2 ^ gridExponent q) * 2 ^ gridExponent q

/-- A number rounded to the nearest point of its grid, ties to even. -/
def rounded (q : ℚ) : ℚ := if 0 ≤ q then roundMag q else -roundMag (-q)

/-- A multiple of the width of its own grid. -/
def OnGrid (q : ℚ) : Prop := ∃ k : ℕ, q = k * 2 ^ gridExponent q

variable {q p : ℚ}

/-- No grid is finer than that of the smallest numbers. -/
theorem neg_1074_le_gridExponent (q : ℚ) : -1074 ≤ gridExponent q := le_max_right _ _

/-- Larger numbers are rounded on coarser grids. -/
theorem gridExponent_mono (hp : 0 < p) (h : p ≤ q) : gridExponent p ≤ gridExponent q :=
  max_le_max_right _ (sub_le_sub_right (Int.log_mono_right hp h) _)

/-- On its grid a magnitude has at most fifty-three bits. -/
theorem div_grid_lt (q : ℚ) : q / 2 ^ gridExponent q < 2 ^ 53 := by
  have hlog : q < (2 : ℕ) ^ (Int.log 2 q + 1) := Int.lt_zpow_succ_log_self one_lt_two q
  rw [div_lt_iff₀ (by positivity), ← zpow_natCast, ← zpow_add₀ two_ne_zero]
  refine hlog.trans_le ?_
  push_cast
  refine zpow_le_zpow_right₀ one_le_two ?_
  rw [gridExponent]
  omega

/-- Off the finest grid it has exactly fifty-three. -/
theorem le_div_grid (hq : 0 < q) (hfine : -1074 < gridExponent q) :
    2 ^ 52 ≤ q / 2 ^ gridExponent q := by
  have hlog : ((2 : ℕ) : ℚ) ^ Int.log 2 q ≤ q := Int.zpow_log_le_self one_lt_two hq
  rw [le_div_iff₀ (by positivity), ← zpow_natCast, ← zpow_add₀ two_ne_zero]
  refine le_trans ?_ hlog
  push_cast
  refine zpow_le_zpow_right₀ one_le_two ?_
  rw [gridExponent] at hfine ⊢
  omega

/-- On all grids but the finest one the mantissa has its leading bit. -/
theorem le_nearestEven_div_grid (hq : 0 < q) (hfine : -1074 < gridExponent q) :
    2 ^ 52 ≤ nearestEven (q / 2 ^ gridExponent q) := by
  have h := nearestEven_mono (le_div_grid hq hfine)
  have hcast : nearestEven ((2 : ℚ) ^ 52) = 2 ^ 52 := by exact_mod_cast nearestEven_natCast (2 ^ 52)
  rwa [hcast] at h

/-- Rounding carries to the next power of two at most. -/
theorem nearestEven_div_grid_le (q : ℚ) : nearestEven (q / 2 ^ gridExponent q) ≤ 2 ^ 53 := by
  have h := nearestEven_mono (div_grid_lt q).le
  have hcast : nearestEven ((2 : ℚ) ^ 53) = 2 ^ 53 := by exact_mod_cast nearestEven_natCast (2 ^ 53)
  rwa [hcast] at h

/-- Rounding does not lead below zero. -/
theorem roundMag_nonneg (q : ℚ) : 0 ≤ roundMag q := by
  unfold roundMag
  positivity

/-- A number on its grid is its own rounding. -/
theorem OnGrid.roundMag_eq (h : OnGrid q) : roundMag q = q := by
  obtain ⟨k, hk⟩ := h
  have hdiv : q / 2 ^ gridExponent q = k := by
    rw [div_eq_iff (by positivity)]
    exact hk
  rw [roundMag, hdiv, nearestEven_natCast]
  exact hk.symm

theorem roundMag_zero : roundMag 0 = 0 := OnGrid.roundMag_eq ⟨0, by simp⟩

/-- **Rounding keeps the order** of magnitudes. -/
theorem roundMag_mono (hp : 0 ≤ p) (h : p ≤ q) : roundMag p ≤ roundMag q := by
  rcases hp.eq_or_lt with rfl | hp
  · rw [roundMag_zero]
    exact roundMag_nonneg q
  have hq := hp.trans_le h
  rcases (gridExponent_mono hp h).eq_or_lt with hsame | hfiner
  · unfold roundMag
    rw [hsame]
    gcongr
    exact nearestEven_mono (by gcongr)
  · -- The larger grid begins where the smaller one ends.
    have hlow := le_nearestEven_div_grid hq ((neg_1074_le_gridExponent p).trans_lt hfiner)
    calc roundMag p
        ≤ ((2 ^ 53 : ℕ) : ℚ) * 2 ^ gridExponent p := by
          unfold roundMag
          gcongr
          exact nearestEven_div_grid_le p
      _ = ((2 ^ 52 : ℕ) : ℚ) * 2 ^ (gridExponent p + 1) := by
          rw [zpow_add_one₀ two_ne_zero]
          push_cast
          ring
      _ ≤ ((2 ^ 52 : ℕ) : ℚ) * 2 ^ gridExponent q := by
          gcongr
          · norm_num
          · exact hfiner
      _ ≤ roundMag q := by
          unfold roundMag
          gcongr

/-- Half the width of the grid. -/
theorem abs_sub_roundMag_le (hq : 0 ≤ q) : |q - roundMag q| ≤ 2 ^ (gridExponent q - 1) := by
  have h := abs_sub_nearestEven_le (x := q / 2 ^ gridExponent q) (by positivity)
  have hpos : (0 : ℚ) < 2 ^ gridExponent q := by positivity
  have heq : q - roundMag q =
      (q / 2 ^ gridExponent q - nearestEven (q / 2 ^ gridExponent q)) * 2 ^ gridExponent q := by
    rw [roundMag, sub_mul, div_mul_cancel₀ _ hpos.ne']
  rw [heq, abs_mul, abs_of_pos hpos, zpow_sub_one₀ two_ne_zero, mul_comm]
  gcongr
  linarith

/-- Rounding is off by a unit in the fifty-fourth bit, or by half the width
of the finest grid. -/
theorem abs_sub_roundMag_le_max (hq : 0 ≤ q) :
    |q - roundMag q| ≤ max (q / 2 ^ 53) (2 ^ (-1075 : ℤ)) := by
  rcases hq.eq_or_lt with rfl | hpos
  · rw [roundMag_zero, sub_zero, abs_zero]
    positivity
  refine (abs_sub_roundMag_le hq).trans ?_
  rcases (neg_1074_le_gridExponent q).eq_or_lt with hfinest | hfine
  · rw [← hfinest]
    exact le_max_right _ _
  · refine le_max_of_le_left ?_
    have h := le_div_grid hpos hfine
    rw [le_div_iff₀ (by positivity)] at h ⊢
    rw [zpow_sub_one₀ two_ne_zero]
    linarith

/-! ## What rounding a mantissa answers with -/

/-- What lies between an integer and the next one has its order of magnitude. -/
theorem log_eq_of_floor {m : ℕ} (hm : 0 < m) {x : ℚ} (hlow : m ≤ x) (hhigh : x < m + 1) (e : ℤ) :
    Int.log 2 (x * 2 ^ e) = Int.log 2 ((m : ℚ) * 2 ^ e) := by
  have hpos : (0 : ℚ) < x := lt_of_lt_of_le (by positivity) hlow
  refine le_antisymm ?_ (Int.log_mono_right (by positivity) (by gcongr))
  -- Below the next power of two there is room for a whole unit.
  have hnext : m + 1 ≤ 2 ^ (m.log2 + 1) := Nat.lt_log2_self
  rw [log_scaled hm, ← Int.lt_add_one_iff, ← Int.lt_zpow_iff_log_lt one_lt_two (by positivity)]
  have hcast : x < 2 ^ (m.log2 + 1) := hhigh.trans_le (by exact_mod_cast hnext)
  push_cast
  rw [show (m.log2 : ℤ) + e + 1 = ((m.log2 + 1 : ℕ) : ℤ) + e by push_cast; ring,
    zpow_add₀ two_ne_zero, zpow_natCast]
  gcongr

/-- The bits kept decide the grid. -/
theorem Stands.gridExponent_eq (h : Stands em x) (hm : 0 < em.mantissa) (e : ℤ) :
    gridExponent (x * 2 ^ e) = gridExponent (em.mantissa * 2 ^ e) := by
  rw [gridExponent, gridExponent, log_eq_of_floor hm h.le h.lt]

/-- How exact the bits are does not change them. -/
theorem mantissa_ofMantissaAndAccuracy (m : ℕ) (acc : Accuracy) :
    (ExtendedMantissa.ofMantissaAndAccuracy m acc).mantissa = m := by
  rcases acc with _ | (_ | _ | _) <;> rfl

/-- A mantissa that is coarse enough stays as it is. -/
theorem shift_stay {r : ℕ} {g : ℤ}
    (h : Format.binary64.targetExponent (totalExponent r g) ≤ g) :
    shiftToTargetExponent .binary64 r g .exact = (⟨r, false, false⟩, g) := by
  have hstay : (Format.binary64.targetExponent (totalExponent r g) - g).toNat = 0 := by omega
  rw [shiftToTargetExponent, shiftToExponent, hstay]
  simp [ExtendedMantissa.ofMantissaAndAccuracy, HShiftRight.hShiftRight, Nat.repeat]

/-- A mantissa that rounding has carried to fifty-four bits is shifted once
more; shorter ones stay.  The result fits its grid. -/
theorem shift_carry {r : ℕ} (hr : 0 < r) (hle : r ≤ 2 ^ 53) {g : ℤ} (hg : -1074 ≤ g)
    (hlow : -1074 < g → 2 ^ 52 ≤ r) :
    ∃ k E, shiftToTargetExponent .binary64 r g .exact = (⟨k, false, false⟩, E) ∧ 0 < k ∧
      (k : ℚ) * 2 ^ E = r * 2 ^ g ∧ gridExponent (k * 2 ^ E) = E := by
  rcases hle.eq_or_lt with hcarry | hlt
  · -- The power stays a variable, for no step should compute it.
    obtain ⟨k, hk⟩ : ∃ k : ℕ, k = 2 ^ 52 := ⟨_, rfl⟩
    have hkpos : 0 < k := by omega
    have hlog : (k * 2 ^ 1).log2 = 53 := by rw [hk, ← pow_add, Nat.log2_two_pow]
    obtain rfl : r = k * 2 ^ 1 := by omega
    have hgrid : gridExponent ((k * 2 ^ 1 : ℕ) * 2 ^ g) = g + (1 : ℕ) := by
      rw [gridExponent, log_scaled hr, hlog]
      omega
    have hsame : (k : ℚ) * 2 ^ (g + 1) = (k * 2 ^ 1 : ℕ) * 2 ^ g := by
      rw [zpow_add_one₀ two_ne_zero]
      push_cast
      ring
    refine ⟨k, g + 1, ?_, hkpos, hsame, by rw [hsame, hgrid]; rfl⟩
    exact shiftToTargetExponent_mul_two_pow ((targetExponent_eq hr g).trans hgrid)
  · have hlog : r.log2 < 53 := (Nat.log2_lt hr.ne').mpr hlt
    have hlogLow : -1074 < g → 52 ≤ r.log2 := fun h => (Nat.le_log2 hr.ne').mpr (hlow h)
    have hgrid : gridExponent (r * 2 ^ g) = g := by
      rw [gridExponent, log_scaled hr]
      omega
    exact ⟨r, g, shift_stay ((targetExponent_eq hr g).trans hgrid).le, hr, rfl, hgrid⟩

/-- The mantissa and the exponent fit the grid, whose exponent may still be
too large. -/
def Fits : UnpackedFloat → Prop
  | .finite _ m e _ => gridExponent (m * 2 ^ e) = e
  | _ => True

/-- Rounding a mantissa whose target exponent is that of the grid. -/
theorem roundWithAccuracy_of_target (s : Sign) {m : ℕ} {e : ℤ} {acc : Accuracy}
    (hx : Stands (.ofMantissaAndAccuracy m acc) x) (hxpos : 0 < x)
    (hle : e ≤ gridExponent (x * 2 ^ e))
    (htarget : Format.binary64.targetExponent (totalExponent m e) = gridExponent (x * 2 ^ e)) :
    rat? (roundWithAccuracy .binary64 s m e acc) = some (s.apply 1 * roundMag (x * 2 ^ e)) ∧
      Fits (roundWithAccuracy .binary64 s m e acc) := by
  obtain ⟨n, hn⟩ := Int.eq_ofNat_of_zero_le (sub_nonneg.mpr hle)
  set q := x * 2 ^ e with hq
  have hfirst : shiftToTargetExponent .binary64 m e acc =
      (ExtendedMantissa.ofMantissaAndAccuracy m acc >>> n, gridExponent q) := by
    rw [shiftToTargetExponent, htarget, shiftToExponent]
    simp only [hn, Int.toNat_natCast]
    rw [← hn, add_sub_cancel]
  have hscale : x / 2 ^ n = q / 2 ^ gridExponent q := by
    have hexp : gridExponent q = e + n := by omega
    rw [hexp, zpow_add₀ two_ne_zero, zpow_natCast, hq, mul_comm, mul_div_mul_left]
    positivity
  have hround := (hx.shiftRight n).roundedMantissa_eq
  rw [hscale] at hround
  set r := nearestEven (q / 2 ^ gridExponent q) with hr
  have hvalue : roundMag q = r * 2 ^ gridExponent q := rfl
  unfold roundWithAccuracy
  simp only [hfirst, hround]
  rcases Nat.eq_zero_or_pos r with hzero | hpos
  · have hshift : (shiftToTargetExponent .binary64 r (gridExponent q) .exact).1.mantissa = 0 := by
      rw [hzero, shift_stay]
      have := neg_1074_le_gridExponent q
      simp only [Format.targetExponent, totalExponent, Format.mantissaBits, Format.minExponent]
      norm_num
      omega
    rw [dif_pos hshift, hvalue, hzero]
    exact ⟨by simp [rat?], trivial⟩
  · have hlow : -1074 < gridExponent q → 2 ^ 52 ≤ r :=
      le_nearestEven_div_grid (by positivity)
    obtain ⟨k, E, hshift, hk, hkE, hgridE⟩ :=
      shift_carry hpos (nearestEven_div_grid_le q) (neg_1074_le_gridExponent q) hlow
    simp only [hshift]
    rw [dif_neg hk.ne', rat?, cast_apply, mul_assoc, Int.cast_natCast, hkE, ← hvalue]
    exact ⟨rfl, hgridE⟩

/-- **What rounding answers with**: a zero or a mantissa on its grid, with
the value rounded to nearest. -/
theorem roundWithAccuracy_spec (s : Sign) {m : ℕ} (hm : 0 < m) {e : ℤ} {acc : Accuracy}
    (hx : Stands (.ofMantissaAndAccuracy m acc) x) (hle : e ≤ gridExponent (x * 2 ^ e)) :
    rat? (roundWithAccuracy .binary64 s m e acc) = some (s.apply 1 * roundMag (x * 2 ^ e)) ∧
      Fits (roundWithAccuracy .binary64 s m e acc) := by
  have hmantissa := mantissa_ofMantissaAndAccuracy m acc
  have hgrid := hx.gridExponent_eq (by rwa [hmantissa]) e
  rw [hmantissa] at hgrid
  have hxpos : 0 < x := (Nat.cast_pos.mpr hm).trans_le (hmantissa ▸ hx.le)
  exact roundWithAccuracy_of_target s hx hxpos hle ((targetExponent_eq hm e).trans hgrid.symm)

/-- Below the finest grid the mantissa may have vanished, with nothing but
residual bits left. -/
theorem roundWithAccuracy_fraction (s : Sign) {e : ℤ} (he : e ≤ -1074) {acc : Accuracy}
    (hx : Stands (.ofMantissaAndAccuracy 0 acc) x) (hxpos : 0 < x) :
    rat? (roundWithAccuracy .binary64 s 0 e acc) = some (s.apply 1 * roundMag (x * 2 ^ e)) ∧
      Fits (roundWithAccuracy .binary64 s 0 e acc) := by
  have hlt : x < 1 := by
    have h := hx.lt
    rwa [mantissa_ofMantissaAndAccuracy, Nat.cast_zero, zero_add] at h
  have hlog : Int.log 2 (x * 2 ^ e) < e := by
    rw [← Int.lt_zpow_iff_log_lt one_lt_two (by positivity)]
    exact_mod_cast mul_lt_of_lt_one_left (by positivity) hlt
  have hgrid : gridExponent (x * 2 ^ e) = -1074 := by
    rw [gridExponent]
    omega
  have htarget : Format.binary64.targetExponent (totalExponent 0 e) = -1074 := by
    simp only [Format.targetExponent, totalExponent, Format.mantissaBits, Format.minExponent,
      Nat.log2_zero]
    norm_num
    omega
  exact roundWithAccuracy_of_target s hx hxpos (by rwa [hgrid]) (htarget.trans hgrid.symm)

end Binary64

end Univariate
