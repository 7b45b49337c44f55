import Univariate.Proofs.Display

/-!
# The shape of a displayed number

A number is shown as a numeral: a sign or none, digits of which the first
is not a superfluous zero, and perhaps a point with up to six further
digits, the last of which is not zero.  A magnitude is a numeral without a
sign, by the two ways in which it is shown; a negative number is shown as
its magnitude is, with a sign in front unless nothing but zero is left of
it.

* `Decimal.Numeral` — a sign, digits, and digits behind a point, with the
  text that they make up and the number that they write;
* `Numeral.WellFormed` — no superfluous zeros;
* `Display.exists_numeral_abs` — the numeral of a magnitude;
* `Display.real_numeral` — every finite number is shown as a well-formed
  numeral close to it.
-/

namespace Univariate

open Binary64

namespace Decimal

/-- A decimal as it is written. -/
structure Numeral where
  negative : Bool
  /-- The digits in front of the point. -/
  whole : List Char
  /-- The digits behind it.  Without any there is no point either. -/
  fraction : List Char

namespace Numeral

/-- The numeral as a text. -/
def text (n : Numeral) : String :=
  signed n.negative (String.ofList (decimalText n.whole n.fraction))

/-- The number that the numeral writes. -/
def value (n : Numeral) : ℚ :=
  (if n.negative then -1 else 1) *
    (ofDigits (ofDigits 0 n.whole) n.fraction / 10 ^ n.fraction.length)

/-- Digits without superfluous zeros, at most `places` of them behind the
point. -/
structure WellFormed (places : ℕ) (n : Numeral) : Prop where
  whole_digits : Digits n.whole
  whole_ne_nil : n.whole ≠ []
  no_leading_zero : n.whole.head? = some '0' → n.whole = ['0']
  fraction_digits : Digits n.fraction
  length_fraction_le : n.fraction.length ≤ places
  no_trailing_zero : n.fraction.getLast? ≠ some '0'

/-- The numeral of zero. -/
def zero : Numeral := ⟨false, ['0'], []⟩

variable {places : ℕ} {n : Numeral}

/-- The numeral of zero is well formed. -/
theorem wellFormed_zero : zero.WellFormed places where
  whole_digits := digits_zeros 1
  whole_ne_nil := List.cons_ne_nil _ _
  no_leading_zero _ := rfl
  fraction_digits _ hc := absurd hc List.not_mem_nil
  length_fraction_le := Nat.zero_le _
  no_trailing_zero := nofun

/-- The numeral of zero writes zero. -/
theorem value_zero : zero.value = 0 := by
  rw [value, zero]
  simp [ofDigits, digitValue]

/-- The same digits with a sign in front. -/
def opposite (n : Numeral) : Numeral := { n with negative := true }

/-- With a sign a numeral stays well formed. -/
theorem WellFormed.opposite (h : n.WellFormed places) : n.opposite.WellFormed places :=
  ⟨h.whole_digits, h.whole_ne_nil, h.no_leading_zero, h.fraction_digits, h.length_fraction_le,
    h.no_trailing_zero⟩

/-- Without a sign the digits are the whole text. -/
theorem text_of_nonneg (hsign : n.negative = false) :
    n.text = String.ofList (decimalText n.whole n.fraction) := by
  rw [text, hsign, signed, if_neg (by decide)]

/-- A sign is written in front. -/
theorem text_opposite (hsign : n.negative = false) : n.opposite.text = "-" ++ n.text := by
  rw [text_of_nonneg hsign]
  rfl

/-- A sign makes the opposite number. -/
theorem value_opposite (hsign : n.negative = false) : n.opposite.value = -n.value := by
  simp [value, opposite, hsign]

/-- Without a sign, the numeral begins with a digit. -/
theorem WellFormed.text_ne (h : n.WellFormed places) (hsign : n.negative = false)
    (rest : String) : n.text ≠ "-" ++ rest := by
  intro heq
  obtain ⟨c, cs, hwhole⟩ := List.exists_cons_of_ne_nil h.whole_ne_nil
  rw [text_of_nonneg hsign, decimalText, hwhole, ← String.toList_inj, String.toList_ofList,
    String.toList_append] at heq
  obtain rfl : c = '-' := (List.cons.inj heq).1
  exact absurd (h.whole_digits '-' (hwhole ▸ List.mem_cons_self)) (by decide)

/-- Only zero is written as a single zero. -/
theorem value_eq_zero (hsign : n.negative = false) (hne : n.whole ≠ []) (h : n.text = "0") :
    n.value = 0 := by
  obtain ⟨c, cs, hwhole⟩ := List.exists_cons_of_ne_nil hne
  rw [text_of_nonneg hsign, decimalText, hwhole, ← String.toList_inj, String.toList_ofList] at h
  obtain ⟨rfl, hrest⟩ := List.cons.inj h
  obtain ⟨rfl, hfraction⟩ := List.append_eq_nil_iff.mp hrest
  have hnil : n.fraction = [] := by
    by_contra hfull
    rw [if_neg hfull] at hfraction
    cases hfraction
  rw [value, hwhole, hnil]
  simp [ofDigits, digitValue]

end Numeral

/-- The digits of a number other than zero do not begin with a zero. -/
theorem head?_toDigits_ne {n : ℕ} (hn : 0 < n) : (Nat.toDigits 10 n).head? ≠ some '0' := by
  induction n using Nat.strongRecOn with
  | ind n ih =>
      rw [Nat.toDigits_eq_if (by norm_num)]
      split_ifs with hsmall
      · interval_cases n <;> decide
      · rw [List.head?_append_of_ne_nil _ Nat.toDigits_ne_nil]
        exact ih (n / 10) (by omega) (by omega)

/-- The digits of a natural number have no superfluous zeros. -/
theorem no_leading_zero_toDigits (n : ℕ) (h : (Nat.toDigits 10 n).head? = some '0') :
    Nat.toDigits 10 n = ['0'] := by
  rcases Nat.eq_zero_or_pos n with rfl | hn
  · rfl
  · exact absurd h (head?_toDigits_ne hn)

/-- **An integer is displayed as a numeral** that is as close to it as
reading it back needs. -/
theorem exists_numeral_natural {x : Float} {n : ℕ} (hn : 0 < n) (hx : Exactly x n) (places : ℕ) :
    ∃ m : Numeral, m.negative = false ∧ m.WellFormed places ∧ display x = m.text ∧
      |m.value - n| ≤ n / 2 ^ 52 := by
  obtain ⟨digits, k, htext, hround⟩ := exists_shownDigits hn hx
  have hnpos : (1 : ℚ) ≤ n := by exact_mod_cast hn
  have hdigits : 0 < digits := by
    refine Nat.pos_of_ne_zero fun hzero => ?_
    rw [hzero, mul_zero, Nat.cast_zero, roundMag_zero] at hround
    linarith
  set whole := Nat.toDigits 10 digits ++ List.replicate k '0' with hwhole
  have hhead : whole.head? ≠ some '0' := by
    rw [hwhole, List.head?_append_of_ne_nil _ Nat.toDigits_ne_nil]
    exact head?_toDigits_ne hdigits
  have hvalue : ofDigits 0 whole = 10 ^ k * digits := by
    rw [hwhole, ofDigits_append, ofDigits_toDigits, ofDigits_zeros]
  refine ⟨⟨false, whole, []⟩, rfl, ?_, ?_, ?_⟩
  · exact {
      whole_digits := (digits_toDigits _).append (digits_zeros k)
      whole_ne_nil := by simp [hwhole, Nat.toDigits_ne_nil]
      no_leading_zero := fun h => absurd h hhead
      fraction_digits := fun c hc => absurd hc List.not_mem_nil
      length_fraction_le := Nat.zero_le _
      no_trailing_zero := nofun }
  · rw [Numeral.text_of_nonneg rfl, decimalText, if_pos rfl, List.append_nil, ← htext,
      String.ofList_toList]
  · have herror := abs_sub_rounded_le_add ((10 ^ k * digits : ℕ) : ℚ)
    have hnonneg : (0 : ℚ) ≤ ((10 ^ k * digits : ℕ) : ℚ) := Nat.cast_nonneg _
    rw [rounded_of_nonneg hnonneg, hround, abs_of_nonneg hnonneg] at herror
    have hself : (Numeral.mk false whole []).value = ((10 ^ k * digits : ℕ) : ℚ) := by
      rw [Numeral.value, hvalue, ofDigits, List.foldl_nil, List.length_nil]
      norm_num
    rw [hself]
    obtain ⟨hlow, hhigh⟩ := abs_le.mp herror
    refine abs_le.mpr ⟨?_, ?_⟩ <;> norm_num at hlow hhigh ⊢ <;> linarith

/-- **A count of millionths is shown as a numeral** that writes it. -/
theorem exists_numeral_placed (units : ℕ) :
    ∃ m : Numeral, m.negative = false ∧ m.WellFormed Display.places ∧
      Display.millionthsText units = m.text ∧
      m.value = units / 10 ^ 6 := by
  obtain ⟨kept, k, htext, hkept, hplaces, hend, hvalue⟩ := exists_shownPlaces units
  refine ⟨⟨false, Nat.toDigits 10 (units / 10 ^ 6), kept⟩, rfl, ?_, ?_, ?_⟩
  · exact {
      whole_digits := digits_toDigits _
      whole_ne_nil := Nat.toDigits_ne_nil
      no_leading_zero := no_leading_zero_toDigits _
      fraction_digits := hkept
      length_fraction_le := show kept.length ≤ 6 by omega
      no_trailing_zero := hend }
  · rw [Numeral.text_of_nonneg rfl, Display.millionthsText, htext]
  · rw [← div_places hplaces hvalue]
    exact one_mul _

end Decimal

namespace Display

open Decimal

/-- **A magnitude is shown as a numeral without a sign.** -/
theorem exists_numeral_abs {c : Float} {q : ℚ} (hc : Exactly c q) :
    ∃ n : Numeral, n.negative = false ∧ n.WellFormed places ∧ real c.abs = n.text ∧
      |n.value - abs q| ≤ max (11 / 10 ^ 10 * max |q| 1) (5 / 10 ^ 7) := by
  rcases real_abs_cases hc with ⟨n, hround, htext, hclose, -⟩ | ⟨units, htext, hclose, -⟩
  · have hmax : 1 ≤ max |q| 1 := le_max_right _ _
    have hle : |q| ≤ max |q| 1 := le_max_left _ _
    have hvanishes : (round c.abs == 0) = true ↔ (n : ℚ) = 0 := hround.beq_iff exactly_zero
    rcases Nat.eq_zero_or_pos n with rfl | hn
    · rw [if_pos (hvanishes.mpr Nat.cast_zero)] at htext
      refine ⟨.zero, rfl, Numeral.wellFormed_zero, htext, le_max_of_le_left ?_⟩
      rw [Numeral.value_zero]
      rw [Nat.cast_zero] at hclose
      exact hclose.trans (mul_le_mul_of_nonneg_right (by norm_num) (by positivity))
    · have hne : (n : ℚ) ≠ 0 := by exact_mod_cast hn.ne'
      obtain ⟨m, hsign, hwell, hdisplay, hvalue⟩ := exists_numeral_natural hn hround places
      rw [if_neg (mt hvanishes.mp hne), hdisplay] at htext
      refine ⟨m, hsign, hwell, htext, le_max_of_le_left ?_⟩
      obtain ⟨hlow, hhigh⟩ := abs_le.mp hclose
      obtain ⟨hlow', hhigh'⟩ := abs_le.mp hvalue
      refine abs_le.mpr ⟨?_, ?_⟩ <;> norm_num at hlow hhigh hlow' hhigh' ⊢ <;> linarith
  · obtain ⟨m, hsign, hwell, hm, hvalue⟩ := exists_numeral_placed units
    refine ⟨m, hsign, hwell, htext.trans hm, le_max_of_le_right ?_⟩
    rwa [hvalue]

/-- The sign of a zero is not shown. -/
theorem real_abs {x : Float} {q : ℚ} (hx : Exactly x q) (hq : 0 ≤ q) : real x.abs = real x := by
  rcases hq.eq_or_lt with rfl | hpos
  · have hzero : Exactly x (0 : ℤ) := by exact_mod_cast hx
    have hzero' : Exactly x.abs (0 : ℤ) := by simpa using hzero.abs
    rw [real_of_integer hzero, real_of_integer hzero', if_pos rfl, if_pos rfl]
  · rw [hx.abs_eq_self hpos]

/-- **Every finite number is shown as a well-formed numeral close to it.**
The numeral has at most six places, is never that of a negative zero, and
has a sign only for a negative number. -/
theorem real_numeral {x : Float} (hx : x.isFinite = true) :
    ∃ (q : ℚ) (n : Numeral), Exactly x q ∧ n.WellFormed 6 ∧ real x = n.text ∧ real x ≠ "-0" ∧
      (n.negative = true → q < 0) ∧
      |n.value - q| ≤ max (11 / 10 ^ 10 * max |q| 1) (5 / 10 ^ 7) := by
  obtain ⟨q, hq⟩ := (isFinite_iff x).mp hx
  obtain ⟨n, hsign, hwell, htext, hclose⟩ := exists_numeral_abs hq
  have hunsigned : n.negative = true → q < 0 := fun h => absurd (hsign.symm.trans h) (by decide)
  have hminus : "-0" = "-" ++ "0" := by decide
  rw [hminus]
  rcases le_or_gt 0 q with hnonneg | hneg
  · rw [real_abs hq hnonneg] at htext
    refine ⟨q, n, hq, hwell, htext, htext ▸ hwell.text_ne hsign "0", hunsigned, ?_⟩
    rwa [abs_of_nonneg hnonneg] at hclose ⊢
  · have habs := hq.abs
    rw [abs_of_neg hneg] at habs
    have hreal := real_neg habs (neg_pos.mpr hneg)
    rw [hq.neg_abs_eq_self hneg, htext] at hreal
    by_cases hzero : n.text = "0"
    · -- Nothing is left but zero, and no sign.
      rw [if_pos hzero, ← hzero] at hreal
      rw [Numeral.value_eq_zero hsign hwell.whole_ne_nil hzero, zero_sub, abs_neg, abs_abs]
        at hclose
      refine ⟨q, n, hq, hwell, hreal, hreal ▸ hwell.text_ne hsign "0", hunsigned, ?_⟩
      rwa [Numeral.value_eq_zero hsign hwell.whole_ne_nil hzero, zero_sub, abs_neg]
    · rw [if_neg hzero] at hreal
      refine ⟨q, n.opposite, hq, hwell.opposite, ?_, ?_, fun _ => hneg, ?_⟩
      · rw [hreal, Numeral.text_opposite hsign]
      · rw [hreal, ne_eq, String.append_right_inj]
        exact hzero
      · rw [Numeral.value_opposite hsign, ← neg_add', abs_neg, ← sub_neg_eq_add,
          ← abs_of_neg hneg]
        exact hclose

/-- A number that is shown with its sign. -/
theorem real_numeral_minus_half :
    (-0.5 : Float).isFinite = true ∧
      ∃ (q : ℚ) (n : Numeral), Exactly (-0.5) q ∧ n.WellFormed 6 ∧ real (-0.5) = n.text ∧
        real (-0.5) ≠ "-0" ∧ (n.negative = true → q < 0) ∧
        |n.value - q| ≤ max (11 / 10 ^ 10 * max |q| 1) (5 / 10 ^ 7) :=
  have hfinite : (-0.5 : Float).isFinite = true := by decide +kernel
  ⟨hfinite, real_numeral hfinite⟩

end Display

end Univariate
