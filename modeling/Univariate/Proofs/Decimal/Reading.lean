import Univariate.Decimal.Reader
import Univariate.Proofs.Decimal.Shortest

/-!
# Reading decimals

A text of digits, with or without a point and further digits, is read as
the number nearest to the decimal fraction it writes.

* `decimalText`, `read?_decimalText` — such a text, and what reading takes
  from it;
* `nearest_spec` — the number that is read;
* `ofDigits_toDigits` — the digits of a natural number read as that number.
-/

namespace Univariate

namespace Decimal

open Binary64

/-- Digits, and further digits behind a point if there are any. -/
def decimalText (whole fraction : List Char) : List Char :=
  whole ++ if fraction = [] then [] else '.' :: fraction

/-- Nothing but digits. -/
def Digits (cs : List Char) : Prop := ∀ c ∈ cs, isDigit c = true

/-! ## Digits -/

/-- The digits of a number are digits. -/
theorem digits_toDigits (n : ℕ) : Digits (Nat.toDigits 10 n) := fun c hc =>
  Nat.isDigit_of_mem_toDigits (by norm_num) le_rfl hc

/-- Zeros are digits. -/
theorem digits_zeros (n : ℕ) : Digits (List.replicate n '0') := fun c hc => by
  rw [List.eq_of_mem_replicate hc]
  rfl

/-- Digits may be written one behind the other. -/
theorem Digits.append {cs ds : List Char} (hc : Digits cs) (hd : Digits ds) : Digits (cs ++ ds) :=
  fun c h => (List.mem_append.mp h).elim (hc c) (hd c)

/-- Digits are read from the left, in portions if need be. -/
theorem ofDigits_append (m : ℕ) (cs ds : List Char) :
    ofDigits m (cs ++ ds) = ofDigits (ofDigits m cs) ds := List.foldl_append

/-- **The digits of a number make it up.** -/
theorem ofDigits_toDigits (n : ℕ) : ofDigits 0 (Nat.toDigits 10 n) = n :=
  Nat.ofDigitChars_ten_toDigits

/-- Zeros at the end multiply by ten. -/
theorem ofDigits_zeros (m n : ℕ) : ofDigits m (List.replicate n '0') = 10 ^ n * m :=
  Nat.ofDigitChars_replicate_zero

/-! ## Texts -/

/-- A run of digits ends where no digit follows. -/
theorem spanDigits_append {cs : List Char} (hc : Digits cs) {rest : List Char}
    (hrest : ∀ c ∈ rest.head?, isDigit c = false) : spanDigits (cs ++ rest) = (cs, rest) := by
  unfold spanDigits
  rw [List.takeWhile_append_of_pos hc, List.dropWhile_append_of_pos hc]
  cases rest with
  | nil => simp
  | cons c rest =>
      have hc := hrest c rfl
      simp [hc]

/-- What is read from a text of digits. -/
theorem read?_decimalText {whole fraction : List Char} (hwhole : Digits whole)
    (hne : whole ≠ []) (hfraction : Digits fraction) :
    read? (decimalText whole fraction) =
      some (nearest (ofDigits (ofDigits 0 whole) fraction) (-(fraction.length : ℤ))) := by
  have hend : ∀ {cs : List Char}, Digits cs → spanDigits cs = (cs, []) := by
    intro cs hcs
    have hspan : spanDigits (cs ++ []) = (cs, []) := spanDigits_append hcs (by simp)
    rwa [List.append_nil] at hspan
  unfold decimalText
  split_ifs with hnil
  · rw [List.append_nil]
    simp [read?, hend hwhole, hnil, hne, readExponent?, ofDigits]
  · have hpoint : spanDigits (whole ++ '.' :: fraction) = (whole, '.' :: fraction) :=
      spanDigits_append hwhole (by simp; rfl)
    simp [read?, hpoint, hend hfraction, hne, readExponent?]

/-- An exponent: its mark, and digits without a sign. -/
def IsExponent (cs : List Char) : Prop :=
  ∃ mark digits, cs = mark :: digits ∧ (mark = 'e' ∨ mark = 'E') ∧ digits ≠ [] ∧ Digits digits

/-- What is spelled like an exponent is read as one. -/
theorem exists_readExponent? {cs : List Char} (h : IsExponent cs) :
    ∃ e, readExponent? cs = some e := by
  obtain ⟨mark, digits, rfl, hmark, hne, hdigits⟩ := h
  obtain ⟨d, ds, rfl⟩ := List.exists_cons_of_ne_nil hne
  have hall : (d :: ds).all isDigit = true := List.all_eq_true.mpr hdigits
  have hd : isDigit d = true := hdigits d List.mem_cons_self
  have hminus : d ≠ '-' := by
    rintro rfl
    exact absurd hd (by decide)
  have hplus : d ≠ '+' := by
    rintro rfl
    exact absurd hd (by decide)
  simp [readExponent?, hmark, hminus, hplus, hall]

/-- Digits and an exponent are read as some number. -/
theorem exists_read?_exponent {whole exponent : List Char} (hwhole : Digits whole)
    (hne : whole ≠ []) (hexponent : IsExponent exponent) :
    ∃ x, read? (whole ++ exponent) = some x := by
  obtain ⟨e, he⟩ := exists_readExponent? hexponent
  obtain ⟨mark, digits, rfl, hmark, -, -⟩ := hexponent
  have hspan : spanDigits (whole ++ mark :: digits) = (whole, mark :: digits) := by
    refine spanDigits_append hwhole ?_
    rcases hmark with rfl | rfl <;> simp <;> rfl
  rcases hmark with rfl | rfl <;> simp [read?, hspan, hne, he]

/-! ## Numbers -/

/-- In the range of exponents the power of ten is formed. -/
theorem nearest_eq {m : ℕ} (hm : m ≠ 0) {e : ℤ} (hhigh : (digitCount m : ℤ) + e ≤ 310)
    (hlow : -330 ≤ (digitCount m : ℤ) + e) :
    nearest m e = Float.ofScientific m (decide (e < 0)) e.natAbs := by
  unfold nearest
  rw [if_neg hm]
  dsimp only
  rw [if_neg (by omega), if_neg (by omega)]

/-- A number has no more decimal digits than binary ones. -/
theorem digitCount_le_log2 (m : ℕ) : digitCount m ≤ m.log2 + 1 :=
  (Nat.length_toDigits_le_iff (by norm_num) (Nat.succ_pos _)).mpr
    (Nat.lt_log2_self.trans_le (Nat.pow_le_pow_left (by norm_num) _))

/-- Numbers of 310 digits overflow. -/
theorem two_pow_le_ten_pow : (2 : ℚ) ^ 1024 ≤ 10 ^ 310 :=
  calc (2 : ℚ) ^ 1024
      = (2 ^ 93) ^ 11 * 2 := by rw [← pow_mul, ← pow_succ]
    _ ≤ (10 ^ 28) ^ 11 * 10 ^ 2 := by gcongr <;> norm_num
    _ = 10 ^ 310 := by rw [← pow_mul, ← pow_add]

/-- Numbers that begin in the 330th place vanish. -/
theorem ten_zpow_lt_two_zpow : (10 : ℚ) ^ (-330 : ℤ) < 2 ^ (-1075 : ℤ) := by
  have h : (2 : ℚ) ^ 1075 < 10 ^ 330 :=
    calc (2 : ℚ) ^ 1075
        = (2 ^ 53) ^ 20 * 2 ^ 15 := by rw [← pow_mul, ← pow_add]
      _ < (10 ^ 16) ^ 20 * 10 ^ 10 := by gcongr <;> norm_num
      _ = 10 ^ 330 := by rw [← pow_mul, ← pow_add]
  rw [zpow_neg, zpow_neg]
  exact inv_strictAnti₀ (by positivity) (by exact_mod_cast h)

/-- Digits far enough to the left of the point are read as infinity. -/
theorem nearest_spec_high {m : ℕ} (hm : m ≠ 0) {e : ℤ} (hhigh : 310 < (digitCount m : ℤ) + e) :
    Nearest (nearest m e) (m * 10 ^ e) := by
  have hinfinity : nearest m e = infinity := by
    unfold nearest
    rw [if_neg hm]
    exact if_pos hhigh
  rw [hinfinity]
  refine nearest_infinity (two_pow_le_ten_pow.trans ?_)
  have hdigits := (zpow_digitCount_bounds (Nat.pos_of_ne_zero hm)).1
  calc (10 : ℚ) ^ 310
      ≤ 10 ^ ((digitCount m : ℤ) - 1 + e) := by
        rw [← zpow_natCast]
        exact zpow_le_zpow_right₀ (by norm_num) (by omega)
    _ = 10 ^ ((digitCount m : ℤ) - 1) * 10 ^ e := zpow_add₀ (by norm_num) _ _
    _ ≤ m * 10 ^ e := by gcongr

/-- Digits far enough to the right of the point are read as zero. -/
theorem nearest_spec_low {m : ℕ} (hm : m ≠ 0) {e : ℤ} (hlow : (digitCount m : ℤ) + e < -330) :
    Nearest (nearest m e) (m * 10 ^ e) := by
  have hzero : nearest m e = 0 := by
    unfold nearest
    rw [if_neg hm]
    dsimp only
    rw [if_neg (by omega), if_pos hlow]
  rw [hzero]
  refine nearest_zero (by positivity) (lt_trans ?_ ten_zpow_lt_two_zpow)
  have hdigits := (zpow_digitCount_bounds (Nat.pos_of_ne_zero hm)).2
  calc (m : ℚ) * 10 ^ e
      < 10 ^ (digitCount m : ℤ) * 10 ^ e := by gcongr
    _ = 10 ^ ((digitCount m : ℤ) + e) := (zpow_add₀ (by norm_num) _ _).symm
    _ ≤ 10 ^ (-330 : ℤ) := zpow_le_zpow_right₀ (by norm_num) hlow.le

/-- **A decimal is read as the number nearest to it**, however many digits
it has and whatever its exponent is. -/
theorem nearest_spec (m : ℕ) (e : ℤ) : Nearest (nearest m e) (m * 10 ^ e) := by
  by_cases hm : m = 0
  · rw [hm, Nat.cast_zero, zero_mul]
    exact exactly_zero.nearest
  rcases lt_or_ge 310 ((digitCount m : ℤ) + e) with hhigh | hhigh
  · exact nearest_spec_high hm hhigh
  rcases lt_or_ge ((digitCount m : ℤ) + e) (-330) with hlow | hlow
  · exact nearest_spec_low hm hlow
  have hpos := digitCount_pos m
  have hbits := digitCount_le_log2 m
  rw [nearest_eq hm hhigh hlow]
  refine nearest_ofScientific ?_ (by omega) (by omega)
  by_cases hsign : e < 0
  · rw [if_pos (decide_eq_true hsign)]
    omega
  · rw [if_neg (by simpa using hsign)]
    omega

/-- A text that is read as a finite number is one of a magnitude. -/
theorem exactly_of_read? {word : List Char} {x : Float} (hread : read? word = some x)
    (hx : x.isFinite = true) : ∃ q : ℚ, 0 ≤ q ∧ Exactly x q := by
  obtain ⟨m, e, rfl⟩ : ∃ m e, x = nearest m e := by
    simp only [read?] at hread
    split_ifs at hread
    · obtain ⟨e, -, hx⟩ := Option.map_eq_some_iff.mp hread
      exact ⟨_, _, hx.symm⟩
  have hnearest := nearest_spec m e
  refine ⟨_, ?_, hnearest.exactly (hnearest.abs_lt_of_isFinite hx)⟩
  rw [rounded_of_nonneg (by positivity)]
  exact roundMag_nonneg _

end Decimal

end Univariate
