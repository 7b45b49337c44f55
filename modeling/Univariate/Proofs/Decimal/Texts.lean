import Univariate.Display
import Univariate.Proofs.Decimal.Reading

/-!
# Decimal texts

The texts that numbers are shown by are digits with at most one point.
An integer is shown by its shortest decimal, which rounds to it; any other
number by a count of millionths without the zeros at the end, which is read
as the number nearest to that fraction.

* `ReadsAs` — a text of digits that reads as a number;
* `display_eq_signed` — a number is displayed with its sign in front;
* `readsAs_natText`, `display_natural` — the text of an integer reads as
  that integer;
* `exists_shownPlaces` — the places that are shown of a count of
  millionths;
* `readsAs_placed` — the text of such a count reads as the nearest number.
-/

namespace Univariate

namespace Binary64

/-- The two parts of a finite magnitude. -/
theorem exists_magnitude {x : Float} {q : ℚ} (hx : Exactly x q) :
    ∃ d, FloatValue.ofFloat x.abs = .finite d ∧ d.negative = false ∧
      (d.mantissa : ℚ) * 2 ^ d.exponent = |q| ∧
      (d.mantissa ≠ 0 → Decimal.IsMagnitude d) := by
  have habs : x.abs.toModel.unpack = x.toModel.unpack.abs :=
    unpack_pack (unpacks_abs hx.unpacks).canonical
  have hcanonical := (unpacks_abs hx.unpacks).canonical
  have hvalue := (unpacks_abs hx.unpacks).value
  rw [ofFloat_eq, habs]
  cases h : x.toModel.unpack with
  | notANumber => simp [h, Float.Model.UnpackedFloat.abs, rat?] at hvalue
  | infinity s => simp [h, Float.Model.UnpackedFloat.abs, rat?] at hvalue
  | zero s =>
      simp only [h, Float.Model.UnpackedFloat.abs, rat?, Option.some.injEq] at hvalue
      exact ⟨_, rfl, rfl, by simp [← hvalue], fun hne => absurd rfl hne⟩
  | finite s m e hm =>
      rw [h] at hcanonical hvalue
      simp only [Float.Model.UnpackedFloat.abs, rat?, Option.some.injEq] at hvalue
      exact ⟨_, rfl, rfl, by simpa [Float.Model.UnpackedFloat.Sign.apply] using hvalue,
        fun _ => ⟨hm, hcanonical.1⟩⟩

/-- A positive number is its own magnitude. -/
theorem Exactly.abs_eq_self {x : Float} {q : ℚ} (hx : Exactly x q) (hq : 0 < q) : x.abs = x := by
  have habs := hx.abs
  rw [abs_of_pos hq] at habs
  exact habs.eq_of_ne_zero hx hq.ne'

/-- A negative number is the opposite of its magnitude. -/
theorem Exactly.neg_abs_eq_self {x : Float} {q : ℚ} (hx : Exactly x q) (hq : q < 0) :
    -x.abs = x := by
  have hneg := hx.abs.neg
  rw [abs_of_neg hq, neg_neg] at hneg
  exact hneg.eq_of_ne_zero hx hq.ne

/-- The two parts of a positive number. -/
theorem exists_positive {x : Float} {q : ℚ} (hx : Exactly x q) (hq : 0 < q) :
    ∃ d, FloatValue.ofFloat x = .finite d ∧ d.negative = false ∧
      (d.mantissa : ℚ) * 2 ^ d.exponent = q ∧ d.mantissa ≠ 0 ∧ Decimal.IsMagnitude d := by
  obtain ⟨d, hd, hsign, hvalue, hmag⟩ := exists_magnitude hx
  rw [hx.abs_eq_self hq] at hd
  rw [abs_of_pos hq] at hvalue
  have hmantissa : d.mantissa ≠ 0 := by
    intro hzero
    rw [hzero, Nat.cast_zero, zero_mul] at hvalue
    exact hq.ne hvalue
  exact ⟨d, hd, hsign, hvalue, hmantissa, hmag hmantissa⟩

/-- The magnitude of a number has the same two parts, and no sign. -/
theorem ofFloat_abs {x : Float} {d : Dyadic} (hd : FloatValue.ofFloat x = .finite d) :
    FloatValue.ofFloat x.abs = .finite { d with negative := false } := by
  have hx : Exactly x d.toRat := (exactly_iff_toRat x d.toRat).mpr ⟨d, hd, rfl⟩
  have habs : x.abs.toModel.unpack = x.toModel.unpack.abs :=
    unpack_pack (unpacks_abs hx.unpacks).canonical
  rw [ofFloat_eq] at hd
  rw [ofFloat_eq, habs]
  cases h : x.toModel.unpack with
  | notANumber | infinity s =>
      rw [h] at hd
      cases hd
  | zero s | finite s m e hm =>
      rw [h] at hd
      obtain rfl := FloatValue.finite.inj hd
      rfl

/-- The opposite of a number has the same two parts, and the other sign. -/
theorem ofFloat_neg {x : Float} {d : Dyadic} (hd : FloatValue.ofFloat x = .finite d) :
    FloatValue.ofFloat (-x) = .finite { d with negative := !d.negative } := by
  have hx : Exactly x d.toRat := (exactly_iff_toRat x d.toRat).mpr ⟨d, hd, rfl⟩
  have hneg : (-x).toModel.unpack = x.toModel.unpack.neg :=
    unpack_pack (unpacks_neg hx.unpacks).canonical
  rw [ofFloat_eq] at hd
  rw [ofFloat_eq, hneg]
  cases h : x.toModel.unpack with
  | notANumber | infinity s =>
      rw [h] at hd
      cases hd
  | zero s | finite s m e hm =>
      rw [h] at hd
      obtain rfl := FloatValue.finite.inj hd
      cases s <;> rfl

end Binary64

namespace Decimal

open Binary64

/-- A text of digits that reads as a number. -/
def ReadsAs (text : List Char) (x : Float) : Prop :=
  ∃ whole fraction, text = decimalText whole fraction ∧ Digits whole ∧ whole ≠ [] ∧
    Digits fraction ∧ read? text = some x

/-- What reads as a number is read as that number. -/
theorem ReadsAs.read {text : List Char} {x : Float} (h : ReadsAs text x) :
    read? text = some x := by
  obtain ⟨whole, fraction, -, -, -, -, hread⟩ := h
  exact hread

/-- Digits in front of zeros are written without a point. -/
theorem positional_of_nonneg {s : Scaled} {k : ℕ} (h : s.exponent = k) :
    (positional s).toList = Nat.toDigits 10 s.digits ++ List.replicate k '0' := by
  have hpositive : 0 ≤ s.exponent := by omega
  rw [positional]
  simp only [if_pos hpositive]
  rw [h, Int.toNat_natCast, natText, String.toList_append, String.toList_ofList,
    String.toList_ofList]

/-- The digits of a natural number and zeros behind them. -/
theorem readsAs_natural {digits k : ℕ} {x : Float} {n : ℕ} (hx : Exactly x n)
    (hround : roundMag ((10 ^ k * digits : ℕ) : ℚ) = n) :
    ∃ y, ReadsAs (Nat.toDigits 10 digits ++ List.replicate k '0') y ∧ Exactly y n := by
  set whole := Nat.toDigits 10 digits ++ List.replicate k '0' with hwhole
  have hdigits : Digits whole := (digits_toDigits _).append (digits_zeros k)
  have hne : whole ≠ [] := by simp [hwhole]
  have hvalue : ofDigits 0 whole = 10 ^ k * digits := by
    rw [ofDigits_append, ofDigits_toDigits, ofDigits_zeros]
  have hread := read?_decimalText hdigits hne (show Digits [] by simp [Digits])
  have htext : decimalText whole [] = whole := by simp [decimalText]
  rw [htext, hvalue] at hread
  refine ⟨_, ⟨whole, [], htext.symm, hdigits, hne, by simp [Digits], hread⟩, ?_⟩
  have hexactly := (nearest_spec (10 ^ k * digits) 0).exactly
  rw [zpow_zero, mul_one, rounded_of_nonneg (Nat.cast_nonneg _), hround] at hexactly
  exact hexactly hx.representable.abs_lt

/-- The digits of a natural number read as the number. -/
theorem readsAs_natText {n : ℕ} (hn : n < 2 ^ 53) :
    ∃ y, ReadsAs (natText n).toList y ∧ Exactly y n := by
  have hrep : Representable (n : ℚ) := by
    exact_mod_cast representable_int (n := n) (by simpa using hn)
  have hround : roundMag ((10 ^ 0 * n : ℕ) : ℚ) = n := by
    rw [pow_zero, one_mul, ← rounded_of_nonneg (Nat.cast_nonneg n), rounded_eq hrep]
  have h := readsAs_natural (exactly_ofNat hn) hround
  rwa [List.replicate_zero, List.append_nil, ← String.toList_ofList (l := Nat.toDigits 10 n)] at h

/-- A text reads as one number only. -/
theorem value_of_readsAs {n : ℕ} (hn : n < 2 ^ 53) {y : Float} {v : ℚ}
    (h : ReadsAs (natText n).toList y) (hy : Exactly y v) : v = n := by
  obtain ⟨z, hz, hvalue⟩ := readsAs_natText hn
  have hread : some z = some y := hz.read.symm.trans h.read
  rw [Option.some.inj hread] at hvalue
  exact hy.unique hvalue

/-- A text that reads as a number starts with a digit. -/
theorem ReadsAs.exists_digit {text : List Char} {y : Float} (h : ReadsAs text y) :
    ∃ c cs, text = c :: cs ∧ isDigit c = true := by
  obtain ⟨whole, fraction, rfl, hwhole, hne, -⟩ := h
  obtain ⟨c, cs, rfl⟩ := List.exists_cons_of_ne_nil hne
  exact ⟨c, _, rfl, hwhole c List.mem_cons_self⟩

/-- A sign is one character in front. -/
theorem toList_signed (negative : Bool) (text : String) :
    (signed negative text).toList = (if negative then ['-'] else []) ++ text.toList := by
  cases negative
  · rfl
  · rw [signed, if_pos rfl, String.toList_append]
    rfl

/-- What follows a text follows its sign too. -/
theorem signed_append (negative : Bool) (text rest : String) :
    signed negative text ++ rest = signed negative (text ++ rest) := by
  cases negative
  · rfl
  · rw [signed, signed, if_pos rfl, if_pos rfl, String.append_assoc]

/-- A number is displayed as its sign and its magnitude. -/
theorem display_eq_signed {x : Float} {d : Dyadic} (hd : FloatValue.ofFloat x = .finite d) :
    display x = signed d.negative (display x.abs) := by
  rw [display, display, hd, ofFloat_abs hd]
  rfl

/-- The opposite of a positive number is displayed with a sign. -/
theorem display_neg {x : Float} {q : ℚ} (hx : Exactly x q) (hq : 0 < q) :
    display (-x) = "-" ++ display x := by
  obtain ⟨d, hd, hsign, -⟩ := exists_positive hx hq
  have habs : (-x).abs = x := by
    have habs := hx.neg.abs
    rw [abs_neg, abs_of_pos hq] at habs
    exact habs.eq_of_ne_zero hx hq.ne'
  rw [display_eq_signed (ofFloat_neg hd), habs, hsign]
  rfl

/-- An integer is displayed by the digits and the zeros of a natural number
that rounds to it. -/
theorem exists_shownDigits {x : Float} {n : ℕ} (hn : 0 < n) (hx : Exactly x n) :
    ∃ digits k, (display x).toList = Nat.toDigits 10 digits ++ List.replicate k '0' ∧
      roundMag ((10 ^ k * digits : ℕ) : ℚ) = n := by
  have hnpos : (0 : ℚ) < n := by exact_mod_cast hn
  obtain ⟨d, hd, hsign, hvalue, hmantissa, hmag⟩ := exists_positive hx hnpos
  obtain ⟨k, hk⟩ := Int.eq_ofNat_of_zero_le (shortest_exponent_nonneg hmag .up hvalue)
  have htext : display x = positional (shortest .up d) := by
    simp only [display, hd, hsign, signed, Bool.false_eq_true, if_false, if_neg hmantissa]
  refine ⟨_, k, by rw [htext, positional_of_nonneg hk], ?_⟩
  -- What the digits write rounds to the integer.
  rw [← hvalue, ← roundMag_shortest hmag .up, Scaled.toRat, hk, zpow_natCast]
  congr 1
  push_cast
  ring

/-- **An integer as displayed reads back.** -/
theorem display_natural {x : Float} {n : ℕ} (hn : 0 < n) (hx : Exactly x n) :
    ∃ y, ReadsAs (display x).toList y ∧ Exactly y n := by
  obtain ⟨digits, k, htext, hround⟩ := exists_shownDigits hn hx
  rw [htext]
  exact readsAs_natural hx hround

/-! ## Fixed places -/

/-- A quotient of natural numbers is rounded by less than a unit. -/
theorem abs_sub_roundDiv_le (num : ℕ) {den : ℕ} (hden : 0 < den) :
    |(num : ℚ) / den - roundDiv num den| ≤ 1 / 2 := by
  have hd : (0 : ℚ) < den := by exact_mod_cast hden
  have hparts : (num : ℚ) = den * ((num / den : ℕ) : ℚ) + ((num % den : ℕ) : ℚ) := by
    exact_mod_cast (Nat.div_add_mod num den).symm
  have hquot : (num : ℚ) / den = ((num / den : ℕ) : ℚ) + ((num % den : ℕ) : ℚ) / den := by
    rw [div_eq_iff hd.ne', add_mul, div_mul_cancel₀ _ hd.ne', mul_comm _ (den : ℚ)]
    exact hparts
  have hlt : ((num % den : ℕ) : ℚ) < den := by exact_mod_cast Nat.mod_lt num hden
  have hrest : (0 : ℚ) ≤ ((num % den : ℕ) : ℚ) / den := by positivity
  have hrest' : ((num % den : ℕ) : ℚ) / den < 1 := (div_lt_one hd).mpr hlt
  rw [hquot, roundDiv, abs_le]
  split_ifs with hup
  · have hhalf : (1 : ℚ) / 2 ≤ ((num % den : ℕ) : ℚ) / den := by
      rw [div_le_div_iff₀ two_pos hd]
      have : den ≤ num % den * 2 := by omega
      rw [one_mul]
      exact_mod_cast this
    push_cast
    constructor <;> linarith
  · have hhalf : ((num % den : ℕ) : ℚ) / den ≤ 1 / 2 := by
      rw [div_le_div_iff₀ hd two_pos]
      have : num % den * 2 ≤ den := by omega
      rw [one_mul]
      exact_mod_cast this
    constructor <;> linarith

/-- No point is dropped in front of a digit. -/
theorem dropWhile_point {c : Char} (hc : isDigit c = true) (cs : List Char) :
    (c :: cs).dropWhile (· == '.') = c :: cs := by
  have hne : (c == '.') = false := by
    by_contra h
    rw [Bool.not_eq_false, beq_iff_eq] at h
    rw [h] at hc
    exact absurd hc (by decide)
  rw [List.dropWhile_cons_of_neg (by rw [hne]; decide)]

/-- Digits read backwards are digits. -/
theorem Digits.reverse {cs : List Char} (h : Digits cs) : Digits cs.reverse :=
  fun c hc => h c (List.mem_reverse.mp hc)

/-- Without its zeros at the end, a list of digits. -/
theorem exists_kept (fraction : List Char) :
    ∃ kept k, fraction = kept ++ List.replicate k '0' ∧
      fraction.reverse.dropWhile (· == '0') = kept.reverse ∧ kept.getLast? ≠ some '0' := by
  refine ⟨(fraction.reverse.dropWhile (· == '0')).reverse,
    (fraction.reverse.takeWhile (· == '0')).length, ?_, by rw [List.reverse_reverse], ?_⟩
  · have hzeros : (fraction.reverse.takeWhile (· == '0')).reverse =
        List.replicate (fraction.reverse.takeWhile (· == '0')).length '0' := by
      rw [List.eq_replicate_iff, List.length_reverse]
      refine ⟨rfl, fun c hc => ?_⟩
      simpa using List.mem_takeWhile_imp (List.mem_reverse.mp hc)
    rw [← hzeros, ← List.reverse_append, List.takeWhile_append_dropWhile, List.reverse_reverse]
  · intro hlast
    rw [List.getLast?_reverse] at hlast
    have hnot := List.head?_dropWhile_not (· == '0') fraction.reverse
    rw [hlast] at hnot
    cases hnot

/-- Zeros at the end of the places are dropped, and the point if nothing is
left behind it. -/
theorem exists_dropTrailing {whole fraction : List Char} (hwhole : Digits whole)
    (hne : whole ≠ []) (hfraction : Digits fraction) :
    ∃ kept k, fraction = kept ++ List.replicate k '0' ∧ kept.getLast? ≠ some '0' ∧
      Display.dropTrailing (whole ++ '.' :: fraction) = decimalText whole kept := by
  obtain ⟨kept, k, hsplit, hdrop, hend⟩ := exists_kept fraction
  refine ⟨kept, k, hsplit, hend, ?_⟩
  have hkept : Digits kept := fun c hc => hfraction c (hsplit ▸ List.mem_append_left _ hc)
  have hreverse : (whole ++ '.' :: fraction).reverse =
      fraction.reverse ++ '.' :: whole.reverse := by simp
  rw [Display.dropTrailing, hreverse, List.dropWhile_append, hdrop, decimalText]
  rcases hlast : kept.reverse with _ | ⟨c, front⟩
  · -- The point goes as well, and stops before the digits.
    obtain rfl : kept = [] := List.reverse_eq_nil_iff.mp hlast
    obtain ⟨w, ws, hw⟩ := List.exists_cons_of_ne_nil (List.reverse_ne_nil_iff.mpr hne)
    have hwdigit : isDigit w = true := hwhole.reverse w (hw ▸ List.mem_cons_self)
    have hpoint : ('.' :: whole.reverse).dropWhile (· == '0') = '.' :: whole.reverse := rfl
    have hpoint' : ('.' :: whole.reverse).dropWhile (· == '.') =
        whole.reverse.dropWhile (· == '.') := rfl
    rw [if_pos List.isEmpty_nil, hpoint, hpoint', hw, dropWhile_point hwdigit, ← hw,
      List.reverse_reverse, if_pos rfl, List.append_nil]
  · have hnil : kept ≠ [] := fun h => by rw [h] at hlast; cases hlast
    have hcdigit : isDigit c = true := hkept.reverse c (hlast ▸ List.mem_cons_self)
    rw [if_neg (by simp), if_neg hnil, List.cons_append, dropWhile_point hcdigit,
      ← List.cons_append, ← hlast]
    simp

/-- What has been read before counts by its place. -/
theorem ofDigits_eq (m : ℕ) (ds : List Char) :
    ofDigits m ds = 10 ^ ds.length * m + ofDigits 0 ds :=
  Nat.ofDigitChars_eq_ofDigitChars_zero

/-- The text of a count of millionths, digits before and behind the point. -/
theorem exists_placed (units : ℕ) :
    ∃ fraction, (placed Display.places units).toList =
        Nat.toDigits 10 (units / 10 ^ 6) ++ '.' :: fraction ∧ Digits fraction ∧
      fraction.length = 6 ∧
      ofDigits (ofDigits 0 (Nat.toDigits 10 (units / 10 ^ 6))) fraction = units := by
  set digits := Nat.toDigits 10 (units % 10 ^ 6) with hdigits
  have hlength : digits.length ≤ 6 :=
    (Nat.length_toDigits_le_iff (by norm_num) (by norm_num)).mpr (Nat.mod_lt _ (by norm_num))
  refine ⟨List.replicate (6 - digits.length) '0' ++ digits, ?_,
    (digits_zeros _).append (digits_toDigits _), ?_, ?_⟩
  · simp only [placed, natText, Display.places, String.toList_append, String.toList_ofList,
      List.append_assoc, Nat.pow_eq, String.length_ofList, ← hdigits]
    rfl
  · rw [List.length_append, List.length_replicate]
    omega
  · have hpow : 10 ^ digits.length * 10 ^ (6 - digits.length) = 10 ^ 6 := by
      rw [← pow_add, Nat.add_sub_cancel' hlength]
    rw [ofDigits_toDigits, ofDigits_append, ofDigits_zeros, ofDigits_eq, ofDigits_toDigits,
      ← mul_assoc, hpow]
    exact Nat.div_add_mod units (10 ^ 6)

/-- As it is shown, a count of millionths has the places up to the last
one that is not zero. -/
theorem exists_shownPlaces (units : ℕ) :
    ∃ kept k, Display.dropTrailing (placed Display.places units).toList =
        decimalText (Nat.toDigits 10 (units / 10 ^ 6)) kept ∧
      Digits kept ∧ kept.length + k = 6 ∧ kept.getLast? ≠ some '0' ∧
      10 ^ k * ofDigits (ofDigits 0 (Nat.toDigits 10 (units / 10 ^ 6))) kept = units := by
  obtain ⟨fraction, htext, hfraction, hlength, hvalue⟩ := exists_placed units
  have hwhole := digits_toDigits (units / 10 ^ 6)
  obtain ⟨kept, k, hsplit, hend, hdrop⟩ :=
    exists_dropTrailing hwhole Nat.toDigits_ne_nil hfraction
  rw [hsplit, ofDigits_append, ofDigits_zeros] at hvalue
  rw [hsplit, List.length_append, List.length_replicate] at hlength
  exact ⟨kept, k, htext ▸ hdrop, fun c hc => hfraction c (hsplit ▸ List.mem_append_left _ hc),
    hlength, hend, hvalue⟩

/-- Zeros at the end of the places do not count. -/
theorem div_places {m k n units : ℕ} (hplaces : n + k = 6) (h : 10 ^ k * m = units) :
    (m : ℚ) / 10 ^ n = units / 10 ^ 6 := by
  rw [← h, ← hplaces, pow_add, div_eq_div_iff (by positivity) (by positivity)]
  push_cast
  ring

/-- **A number with six places reads back as the fraction it was rounded
to.** -/
theorem readsAs_placed (units : ℕ) :
    ∃ y, ReadsAs (Display.dropTrailing (placed Display.places units).toList) y ∧
      Nearest y (units / 10 ^ 6) := by
  obtain ⟨kept, k, htext, hkept, hplaces, -, hvalue⟩ := exists_shownPlaces units
  have hwhole := digits_toDigits (units / 10 ^ 6)
  have hne : Nat.toDigits 10 (units / 10 ^ 6) ≠ [] := Nat.toDigits_ne_nil
  rw [htext]
  refine ⟨_, ⟨_, kept, rfl, hwhole, hne, hkept, read?_decimalText hwhole hne hkept⟩, ?_⟩
  rw [← div_places hplaces hvalue]
  have hnearest := nearest_spec (ofDigits (ofDigits 0 (Nat.toDigits 10 (units / 10 ^ 6))) kept)
    (-(kept.length : ℤ))
  rwa [zpow_neg, zpow_natCast, ← div_eq_mul_inv] at hnearest

end Decimal

end Univariate
