import Univariate.Proofs.Decimal.Texts

/-!
# Displayed magnitudes read back

A magnitude is shown as an integer if it is as good as one, and with six
places otherwise.  The test for it is made in rounded arithmetic.  Up to
the rounding errors of its two sides it says what it would say exactly: a
magnitude that passes is very close to the integer, and one that fails is
no integer and not large.  So reading the text finds a number again, the
same one for an integer and a close one for any other.

* `exactly_nearestNat` — the nearest integer is a number itself;
* `integer_test` — what the test says in exact arithmetic;
* `real_abs_cases`, `readsAs_real` — the two ways in which a magnitude is
  shown, and that the text reads back;
* `real_neg` — a negative number is shown with a sign, or as zero;
* `real_eq_signed`, `readsAs_integer`, `real_eq_zero_iff` — an integer is
  shown with its sign in front, its magnitude reads back as it is, and only
  zero is shown as zero.
-/

namespace Univariate

namespace Display

open Binary64 Decimal

/-! ## The nearest integer -/

/-- The magnitude of a dyadic value. -/
def magnitude (d : Dyadic) : ℚ := d.mantissa * 2 ^ d.exponent

/-- The nearest natural number is the whole part of half a unit more. -/
theorem nearestNat_bounds (d : Dyadic) :
    (d.nearestNat : ℚ) ≤ magnitude d + 1 / 2 ∧ magnitude d + 1 / 2 < d.nearestNat + 1 := by
  have hden : (0 : ℚ) < d.denominator := by exact_mod_cast d.denominator_pos
  have hquot : magnitude d + 1 / 2 =
      ((2 * d.numerator + d.denominator : ℕ) : ℚ) / ((2 * d.denominator : ℕ) : ℚ) := by
    rw [magnitude, ← d.numerator_div_denominator]
    push_cast
    field_simp
  have hfloor : d.nearestNat = ⌊magnitude d + 1 / 2⌋₊ := by
    rw [hquot, Nat.floor_div_eq_div]
    rfl
  have hpos : 0 ≤ magnitude d + 1 / 2 := by
    unfold magnitude
    positivity
  rw [hfloor]
  exact ⟨Nat.floor_le hpos, Nat.lt_floor_add_one _⟩

/-- A natural number is nearest to itself. -/
theorem nearestNat_eq {d : Dyadic} {n : ℕ} (h : magnitude d = n) : d.nearestNat = n := by
  obtain ⟨hle, hlt⟩ := nearestNat_bounds d
  rw [h] at hle hlt
  have h1 : (d.nearestNat : ℚ) < n + 1 := by linarith
  have h2 : (n : ℚ) < d.nearestNat + 1 := by linarith
  have h1' : d.nearestNat < n + 1 := by exact_mod_cast h1
  have h2' : n < d.nearestNat + 1 := by exact_mod_cast h2
  omega

/-- The nearest integer is a number itself: from fifty-three bits on every
number is an integer. -/
theorem exactly_nearestNat {d : Dyadic} (hd : d.mantissa ≠ 0 → IsMagnitude d)
    (hrep : Representable (magnitude d)) : Exactly (Float.ofNat d.nearestNat) d.nearestNat := by
  by_cases hsmall : d.nearestNat < 2 ^ 53
  · exact exactly_ofNat hsmall
  · have hbig : (2 : ℚ) ^ 53 ≤ d.nearestNat := by exact_mod_cast not_lt.mp hsmall
    have hmag : (2 : ℚ) ^ 52 ≤ magnitude d := by linarith [(nearestNat_bounds d).1]
    have hmantissa : d.mantissa ≠ 0 := by
      intro hzero
      rw [magnitude, hzero, Nat.cast_zero, zero_mul] at hmag
      norm_num at hmag
    have hexp : 0 ≤ d.exponent := by
      have hlog : (52 : ℤ) ≤ Int.log 2 (magnitude d) := by
        rw [← Int.zpow_le_iff_le_log one_lt_two (lt_of_lt_of_le (by positivity) hmag)]
        exact_mod_cast hmag
      have hgrid := (hd hmantissa).grid
      rw [gridExponent] at hgrid
      unfold magnitude at hlog
      omega
    obtain ⟨k, hk⟩ := Int.eq_ofNat_of_zero_le hexp
    have hnat : magnitude d = ((d.mantissa * 2 ^ k : ℕ) : ℚ) := by
      rw [magnitude, hk, zpow_natCast]
      push_cast
      rfl
    rw [nearestNat_eq hnat]
    exact (nearest_ofNat _).exactly_of_representable (hnat ▸ hrep)

/-! ## The text -/

/-- The tolerance is a billionth, up to rounding. -/
theorem exists_integerTolerance :
    ∃ τ, Exactly integerTolerance τ ∧ 0 ≤ τ ∧ τ ≤ 1 ∧ |1 / 10 ^ 9 - τ| ≤ 1 / 10 ^ 20 := by
  obtain ⟨τ, hτ, hclose⟩ := exists_tenths (k := 9) (by norm_num)
  have hclose' : |1 / 10 ^ 9 - τ| ≤ 1 / 10 ^ 20 := hclose.trans (by norm_num)
  obtain ⟨hlow, hhigh⟩ := abs_le.mp hclose'
  have hnonneg : (1 : ℚ) / 10 ^ 20 ≤ 1 / 10 ^ 9 := by norm_num
  have hle : (1 : ℚ) / 10 ^ 9 + 1 / 10 ^ 20 ≤ 1 := by norm_num
  exact ⟨τ, hτ, by linarith, by linarith, hclose'⟩

/-- A distance of half a unit at most stays one when it is rounded. -/
theorem abs_rounded_le_half {δ : ℚ} (h : |δ| ≤ 1 / 2) : |rounded δ| ≤ 1 / 2 := by
  have hrep : Representable (1 / 2 : ℚ) :=
    ⟨1, -1, by norm_num, by norm_num, by norm_num [maxGridExponent], by norm_num⟩
  have hmono := rounded_mono h
  rwa [rounded_eq hrep, rounded_of_nonneg (abs_nonneg δ), ← abs_rounded] at hmono

/-- The test for an integer, on the numbers that its two sides are. -/
theorem test_iff {x nearest : Float} {q r τ : ℚ} (hτ : Exactly integerTolerance τ)
    (hτ0 : 0 ≤ τ) (hτ1 : τ ≤ 1) (hx : Exactly x q) (hr : Exactly nearest r)
    (hhalf : |q - r| ≤ 1 / 2) :
    (x - nearest).abs ≤ integerTolerance * Scalar.max x.abs 1 ↔
      |rounded (q - r)| ≤ rounded (τ * max |q| 1) := by
  have hshare : Exactly (integerTolerance * Scalar.max x.abs 1) (rounded (τ * max |q| 1)) :=
    exists_share hτ hτ0 hτ1 (hx.abs.max exactly_one) (by positivity)
  have hrounded := abs_rounded_le_half hhalf
  have hdistance : Exactly (x - nearest).abs |rounded (q - r)| :=
    ((hx.nearest_sub hr).exactly
      (hrounded.trans_lt (one_half_lt_one.trans (one_lt_pow₀ one_lt_two (by norm_num))))).abs
  exact hdistance.le_iff hshare

/-- The nearest integer is half a unit away at most. -/
theorem abs_sub_nearestNat_le (d : Dyadic) : |magnitude d - d.nearestNat| ≤ 1 / 2 := by
  obtain ⟨hle, hlt⟩ := nearestNat_bounds d
  exact abs_le.mpr ⟨by linarith, by linarith⟩

/-- What the test for an integer says, in exact arithmetic: a magnitude
that passes is as close to the integer as the tolerance says, up to
rounding; one that fails is not an integer, and not large either. -/
theorem integer_test {d : Dyadic} (hd : d.mantissa ≠ 0 → IsMagnitude d) {x : Float}
    (hx : Exactly x (magnitude d)) :
    let nearest := Float.ofNat d.nearestNat
    ((x - nearest).abs ≤ integerTolerance * Scalar.max x.abs 1 →
        |magnitude d - d.nearestNat| ≤ 101 / 10 ^ 11 * max (magnitude d) 1) ∧
      (¬ (x - nearest).abs ≤ integerTolerance * Scalar.max x.abs 1 →
        magnitude d ≠ d.nearestNat ∧ magnitude d ≤ 6 * 10 ^ 8) := by
  intro nearest
  have hpos : 0 ≤ magnitude d := by unfold magnitude; positivity
  obtain ⟨τ, hτ, hτ0, hτ1, hτbounds⟩ := exists_integerTolerance
  obtain ⟨hτlow, hτhigh⟩ := abs_le.mp hτbounds
  have hδhalf := abs_sub_nearestNat_le d
  rw [test_iff hτ hτ0 hτ1 hx (exactly_nearestNat hd hx.representable) hδhalf, abs_of_nonneg hpos]
  set M := max (magnitude d) 1 with hM
  have hM1 : 1 ≤ M := le_max_right _ _
  set δ := magnitude d - d.nearestNat with hδ
  -- Both sides are off by their rounding errors.
  obtain ⟨hδlow, hδhigh⟩ := abs_le.mp ((abs_abs_sub_abs_le δ (rounded δ)).trans
    (abs_sub_rounded_le_add δ))
  have hshareError := abs_sub_rounded_le_add (τ * M)
  rw [abs_of_nonneg (by positivity : 0 ≤ τ * M)] at hshareError
  obtain ⟨hsharelow, hsharehigh⟩ := abs_le.mp hshareError
  have hτMlow : (1 / 10 ^ 9 - 1 / 10 ^ 20) * M ≤ τ * M := by gcongr; linarith
  have hτMhigh : τ * M ≤ (1 / 10 ^ 9 + 1 / 10 ^ 20) * M := by gcongr; linarith
  refine ⟨fun h => ?_, fun h => ⟨fun heq => ?_, ?_⟩⟩
  · norm_num at *
    linarith
  · have hzero : δ = 0 := by rw [hδ, heq, sub_self]
    refine h ?_
    rw [hzero, rounded_of_nonneg le_rfl, roundMag_zero, abs_zero,
      rounded_of_nonneg (by positivity)]
    exact roundMag_nonneg _
  · have hMle : magnitude d ≤ M := le_max_left _ _
    norm_num at *
    linarith

/-- The text of an integer that is not zero, or of zero. -/
theorem readsAs_natural_text {x : Float} {n : ℕ} (hx : Exactly x n) :
    ∃ y, ReadsAs (if x == 0 then "0" else Decimal.display x).toList y ∧ Exactly y n := by
  have htest : (x == 0) = true ↔ (n : ℚ) = 0 := hx.beq_iff exactly_zero
  by_cases hn : n = 0
  · subst hn
    have hdigits : Digits ['0'] := digits_zeros 1
    rw [if_pos (htest.mpr Nat.cast_zero)]
    refine ⟨nearest 0 0, ⟨['0'], [], rfl, hdigits, by simp, by simp [Digits], ?_⟩, ?_⟩
    · exact read?_decimalText hdigits (by simp) (show Digits [] by simp [Digits])
    · exact_mod_cast exactly_zero
  · rw [if_neg (mt htest.mp (by exact_mod_cast hn))]
    exact display_natural (Nat.pos_of_ne_zero hn) hx

/-- The text of a count of millionths begins with a digit. -/
theorem exists_digit_shownPlaces (units : ℕ) :
    ∃ c cs, dropTrailing (placed places units).toList = c :: cs ∧ isDigit c = true := by
  obtain ⟨kept, k, htext, -⟩ := exists_shownPlaces units
  obtain ⟨c, cs, hwhole⟩ :=
    List.exists_cons_of_ne_nil (Nat.toDigits_ne_nil (n := units / 10 ^ 6) (b := 10))
  refine ⟨c, _, htext.trans (by rw [decimalText, hwhole, List.cons_append]), ?_⟩
  exact digits_toDigits _ c (hwhole ▸ List.mem_cons_self)

/-- A character that is neither a zero nor a point stays in front. -/
theorem dropTrailing_cons {c : Char} (hzero : (c == '0') = false) (hpoint : (c == '.') = false)
    (text : List Char) : dropTrailing (c :: text) = c :: dropTrailing text := by
  have hstop {p : Char → Bool} (hp : p c = false) (cs : List Char) :
      (cs ++ [c]).dropWhile p = cs.dropWhile p ++ [c] := by
    rw [List.dropWhile_append]
    split_ifs with hnil
    · rw [List.isEmpty_iff.mp hnil, List.dropWhile_cons_of_neg (by rw [hp]; decide),
        List.nil_append]
    · rfl
  rw [dropTrailing, List.reverse_cons, hstop hzero, hstop hpoint, List.reverse_append]
  rfl

/-- The millionths that a magnitude is rounded to. -/
def millionths (d : Dyadic) : ℕ := roundDiv (d.numerator * 10 ^ 6) d.denominator

/-- A count of millionths as it is shown. -/
def millionthsText (units : ℕ) : String :=
  String.ofList (dropTrailing (placed places units).toList)

/-- No text of millionths is a negative zero. -/
theorem millionthsText_ne (units : ℕ) : millionthsText units ≠ "-0" := by
  intro h
  obtain ⟨c, cs, heq, hdigit⟩ := exists_digit_shownPlaces units
  rw [millionthsText, ← String.toList_inj, String.toList_ofList, heq] at h
  obtain rfl : c = '-' := (List.cons.inj h).1
  cases hdigit

/-- The text of a number that is not as good as an integer: its count of
millionths, with the sign in front unless only zero is left. -/
theorem real_of_fails {x : Float} {d : Dyadic} (hd : FloatValue.ofFloat x = .finite d)
    (htest : ¬ (x - round x).abs ≤ integerTolerance * Scalar.max x.abs 1) :
    real x = if d.negative = true then
        if millionthsText (millionths d) = "0" then "0" else "-" ++ millionthsText (millionths d)
      else millionthsText (millionths d) := by
  have hfixed : Decimal.fixed places x = signed d.negative (placed places (millionths d)) := by
    simp only [Decimal.fixed, hd]
    rfl
  have hreal : real x = _ := if_neg htest
  rw [hfixed] at hreal
  rw [hreal]
  generalize millionths d = units
  cases d.negative with
  | false =>
      rw [if_neg Bool.false_ne_true]
      exact if_neg (millionthsText_ne units)
  | true =>
      have hsigned : String.ofList (dropTrailing (signed true (placed places units)).toList) =
          "-" ++ millionthsText units := by
        rw [toList_signed, if_pos rfl, List.singleton_append, dropTrailing_cons rfl rfl,
          millionthsText, ← List.singleton_append, String.ofList_append]
      have hminus : "-0" = "-" ++ "0" := by decide
      rw [hsigned, if_pos rfl, hminus]
      exact if_congr (String.append_right_inj "-") rfl rfl

/-- The two ways in which a magnitude is shown: as the nearest integer, or
as a count of millionths, and then it is no integer and not large. -/
theorem real_abs_cases {c : Float} {q : ℚ} (hc : Exactly c q) :
    (∃ n : ℕ, Exactly (round c.abs) n ∧
        real c.abs = (if round c.abs == 0 then "0" else Decimal.display (round c.abs)) ∧
        |n - abs q| ≤ 101 / 10 ^ 11 * max |q| 1 ∧ ∀ k : ℕ, |q| = k → n = k) ∨
      ∃ units : ℕ, real c.abs = millionthsText units ∧
        |units / 10 ^ 6 - abs q| ≤ 5 / 10 ^ 7 ∧ |q| ≤ 6 * 10 ^ 8 ∧ ∀ k : ℕ, |q| ≠ k := by
  obtain ⟨d, hd, hsign, hvalue, hmag⟩ := exists_magnitude hc
  have hx : Exactly c.abs (magnitude d) := by
    rw [magnitude, hvalue]
    exact hc.abs
  have hround : round c.abs = Float.ofNat d.nearestNat := by
    simp only [round, hd, hsign, Bool.false_eq_true, if_false]
  obtain ⟨hpass, hfail⟩ := integer_test hmag hx
  rw [← hround] at hpass hfail
  have hq : |q| = magnitude d := hvalue.symm
  rw [hq]
  by_cases htest : (c.abs - round c.abs).abs ≤ integerTolerance * Scalar.max c.abs.abs 1
  · refine .inl ⟨d.nearestNat, hround ▸ exactly_nearestNat hmag hx.representable, if_pos htest,
      ?_, fun k hk => nearestNat_eq hk⟩
    rw [abs_sub_comm]
    exact hpass htest
  · obtain ⟨hne, hsmall⟩ := hfail htest
    have hclose : |magnitude d * 10 ^ 6 - millionths d| ≤ 1 / 2 := by
      have h := abs_sub_roundDiv_le (d.numerator * 10 ^ 6) d.denominator_pos
      rwa [Nat.cast_mul, mul_div_right_comm, d.numerator_div_denominator, Nat.cast_pow,
        Nat.cast_ofNat] at h
    obtain ⟨hlow, hhigh⟩ := abs_le.mp hclose
    have htext := real_of_fails hd htest
    rw [hsign, if_neg Bool.false_ne_true] at htext
    refine .inr ⟨millionths d, htext, abs_le.mpr ⟨by linarith, by linarith⟩, hsmall,
      fun k hk => hne ?_⟩
    rw [hk, nearestNat_eq hk]

/-- **A magnitude as shown reads back**: an integer as itself, any other
number within a millionth. -/
theorem readsAs_real {c : Float} {q : ℚ} (hc : Exactly c q) :
    ∃ y r, ReadsAs (real c.abs).toList y ∧ Exactly y r ∧ 0 ≤ r ∧
      |r - abs q| ≤ 7 / 10 ^ 7 * max |q| 1 ∧ ((∃ n : ℕ, |q| = n) → r = |q|) := by
  have hmax : 1 ≤ max |q| 1 := le_max_right _ _
  rcases real_abs_cases hc with ⟨n, hround, htext, hclose, hinteger⟩ |
    ⟨units, htext, hclose, hsmall, hinteger⟩
  · obtain ⟨y, hy, hexactly⟩ := readsAs_natural_text hround
    rw [htext]
    refine ⟨y, n, hy, hexactly, Nat.cast_nonneg _, hclose.trans ?_, fun ⟨k, hk⟩ => ?_⟩
    · exact mul_le_mul_of_nonneg_right (by norm_num) (by positivity)
    · rw [hinteger k hk, hk]
  · obtain ⟨hlow, hhigh⟩ := abs_le.mp hclose
    have hbound : (units : ℚ) < 2 ^ 53 := by linarith
    obtain ⟨y, hy, hnearest⟩ := readsAs_placed units
    have hnonneg : (0 : ℚ) ≤ units / 10 ^ 6 := by positivity
    have herror := abs_sub_rounded_le_add ((units : ℚ) / 10 ^ 6)
    rw [abs_of_nonneg hnonneg] at herror
    obtain ⟨helow, hehigh⟩ := abs_le.mp herror
    have hrounded : 0 ≤ rounded ((units : ℚ) / 10 ^ 6) := by
      rw [rounded_of_nonneg hnonneg]
      exact roundMag_nonneg _
    have hr : |rounded ((units : ℚ) / 10 ^ 6) - abs q| ≤ 7 / 10 ^ 7 := by
      rw [abs_le]
      norm_num at *
      constructor <;> linarith
    rw [htext, millionthsText, String.toList_ofList]
    refine ⟨y, _, hy, hnearest.exactly ?_, hrounded, hr.trans ?_, fun ⟨k, hk⟩ => ?_⟩
    · rw [abs_of_nonneg hrounded]
      have : rounded ((units : ℚ) / 10 ^ 6) ≤ 2 ^ 54 := by
        norm_num at *
        linarith
      exact this.trans_lt (pow_lt_pow_right₀ one_lt_two (by norm_num))
    · exact le_mul_of_one_le_right (by norm_num) hmax
    · exact absurd hk (hinteger k)

/-! ## Signs -/

section Sign

variable {x : Float} {q : ℚ}

/-- The displayed text of an integer other than zero is not that of zero. -/
theorem display_ne_zero {n : ℕ} (hn : 0 < n) (hx : Exactly x n) : Decimal.display x ≠ "0" := by
  intro hzero
  obtain ⟨y, hread, hy⟩ := display_natural hn hx
  rw [hzero] at hread
  have hvalue := value_of_readsAs (n := 0) (by norm_num) hread hy
  exact hn.ne' (by exact_mod_cast hvalue)

/-- The test for an integer does not look at the sign. -/
theorem test_neg_iff {nearest : Float} {r : ℚ} (hx : Exactly x q) (hr : Exactly nearest r)
    (hhalf : |q - r| ≤ 1 / 2) :
    (-x - -nearest).abs ≤ integerTolerance * Scalar.max (-x).abs 1 ↔
      (x - nearest).abs ≤ integerTolerance * Scalar.max x.abs 1 := by
  obtain ⟨τ, hτ, hτ0, hτ1, -⟩ := exists_integerTolerance
  have hopposite : -q - -r = -(q - r) := by ring
  have hhalf' : |-q - -r| ≤ 1 / 2 := by rwa [hopposite, abs_neg]
  rw [test_iff hτ hτ0 hτ1 hx.neg hr.neg hhalf', test_iff hτ hτ0 hτ1 hx hr hhalf, hopposite,
    rounded_neg, abs_neg, abs_neg]

/-- **A negative number is shown as its magnitude with a sign**, or as zero
if that is how the magnitude is shown. -/
theorem real_neg (hx : Exactly x q) (hq : 0 < q) :
    real (-x) = if real x = "0" then "0" else "-" ++ real x := by
  obtain ⟨d, hd, hsign, hvalue, -, hmag⟩ := exists_positive hx hq
  set nearest := Float.ofNat d.nearestNat with hnearest
  have hvalue' : magnitude d = q := hvalue
  have hr : Exactly nearest d.nearestNat :=
    exactly_nearestNat (fun _ => hmag) (hvalue' ▸ hx.representable)
  have hround : round x = nearest := by simp [round, hd, hsign, hnearest]
  have hround' : round (-x) = -nearest := by
    simp only [round, ofFloat_neg hd, hsign, Bool.not_false, if_true]
    rfl
  have htest := test_neg_iff hx hr (hvalue' ▸ abs_sub_nearestNat_le d)
  by_cases hpass : (x - nearest).abs ≤ integerTolerance * Scalar.max x.abs 1
  · have hreal : real x = _ := if_pos (hround ▸ hpass)
    have hreal' : real (-x) = _ := if_pos (hround' ▸ htest.mpr hpass)
    rw [hround] at hreal
    rw [hround'] at hreal'
    have hzero : (nearest == 0) = true ↔ (d.nearestNat : ℚ) = 0 := hr.beq_iff exactly_zero
    have hzero' : (-nearest == 0) = true ↔ -(d.nearestNat : ℚ) = 0 := hr.neg.beq_iff exactly_zero
    rcases Nat.eq_zero_or_pos d.nearestNat with hn | hn
    · have hn' : (d.nearestNat : ℚ) = 0 := by rw [hn, Nat.cast_zero]
      rw [hreal, hreal', if_pos (hzero.mpr hn'), if_pos (hzero'.mpr (neg_eq_zero.mpr hn')),
        if_pos rfl]
    · have hn' : (d.nearestNat : ℚ) ≠ 0 := by exact_mod_cast hn.ne'
      rw [hreal, hreal', if_neg (mt hzero.mp hn'), if_neg (mt hzero'.mp (neg_ne_zero.mpr hn')),
        if_neg (display_ne_zero hn hr), display_neg hr (by exact_mod_cast hn)]
  · have hreal := real_of_fails hd (hround ▸ hpass)
    have hreal' := real_of_fails (ofFloat_neg hd) (hround' ▸ mt htest.mp hpass)
    rw [hsign, if_neg Bool.false_ne_true] at hreal
    rw [hsign, Bool.not_false, if_pos rfl] at hreal'
    rw [hreal, hreal']
    rfl

end Sign

/-! ## Integers -/

section Integers

variable {c : Float} {k : ℤ}

/-- An integer is the nearest integer to itself. -/
theorem exactly_round (hc : Exactly c k) : Exactly (round c) k := by
  obtain ⟨d, hd, hvalue⟩ := (exactly_iff_toRat c k).mp hc
  have hmagnitude : magnitude d = k.natAbs := by
    have hpos : 0 ≤ magnitude d := by unfold magnitude; positivity
    rw [Nat.cast_natAbs, Int.cast_abs, ← hvalue, Dyadic.toRat, abs_mul, ← magnitude,
      abs_of_nonneg hpos]
    split_ifs <;> simp
  have hnatural : Exactly (Float.ofNat d.nearestNat) (magnitude d) := by
    rw [nearestNat_eq hmagnitude, hmagnitude]
    refine (nearest_ofNat _).exactly_of_representable ?_
    rw [Nat.cast_natAbs, Int.cast_abs]
    exact hc.abs.representable
  rw [← hvalue, Dyadic.toRat, ← magnitude]
  simp only [round, hd]
  split_ifs
  · rw [neg_one_mul]
    exact hnatural.neg
  · rwa [one_mul]

/-- An integer is as good as an integer. -/
theorem real_of_integer (hc : Exactly c k) :
    real c = if k = 0 then "0" else Decimal.display c := by
  have hround := exactly_round hc
  obtain ⟨τ, hτ, hτ0, hτ1, -⟩ := exists_integerTolerance
  have htest : (c - round c).abs ≤ integerTolerance * Scalar.max c.abs 1 := by
    rw [test_iff hτ hτ0 hτ1 hc hround (by norm_num), sub_self, rounded_of_nonneg le_rfl,
      roundMag_zero, abs_zero, rounded_of_nonneg (by positivity)]
    exact roundMag_nonneg _
  have hvanishes : (round c == 0) = true ↔ (k : ℚ) = 0 := hround.beq_iff exactly_zero
  rw [real, if_pos htest]
  by_cases hk : k = 0
  · rw [if_pos hk, if_pos (hvanishes.mpr (by exact_mod_cast hk))]
  · have hk' : (k : ℚ) ≠ 0 := by exact_mod_cast hk
    rw [if_neg hk, if_neg (mt hvanishes.mp hk'), hround.eq_of_ne_zero hc hk']

/-- **An integer is shown as its sign and its magnitude.** -/
theorem real_eq_signed (hc : Exactly c k) :
    real c = Decimal.signed (decide (k < 0)) (real c.abs) := by
  have habs : Exactly c.abs (|k| : ℤ) := by
    rw [Int.cast_abs]
    exact hc.abs
  rw [real_of_integer hc, real_of_integer habs]
  rcases lt_trichotomy k 0 with hneg | rfl | hpos
  · have hk : (0 : ℚ) < (|k| : ℤ) := by exact_mod_cast abs_pos.mpr hneg.ne
    have hsigned := display_neg habs hk
    rw [hc.neg_abs_eq_self (by exact_mod_cast hneg)] at hsigned
    rw [if_neg hneg.ne, if_neg (abs_ne_zero.mpr hneg.ne), decide_eq_true hneg, hsigned]
    rfl
  · rfl
  · rw [if_neg hpos.ne', if_neg (abs_ne_zero.mpr hpos.ne'), decide_eq_false hpos.not_gt,
      hc.abs_eq_self (by exact_mod_cast hpos)]
    rfl

/-- The magnitude of an integer reads back as it is. -/
theorem readsAs_integer (hc : Exactly c k) :
    ∃ y, ReadsAs (real c.abs).toList y ∧ Exactly y (|k| : ℤ) := by
  obtain ⟨y, r, hread, hy, -, -, hinteger⟩ := readsAs_real hc
  have hnatural : |(k : ℚ)| = k.natAbs := by rw [Nat.cast_natAbs, Int.cast_abs]
  rw [hinteger ⟨_, hnatural⟩] at hy
  exact ⟨y, hread, by rwa [Int.cast_abs]⟩

/-- Only zero is shown as zero. -/
theorem real_eq_zero_iff (hc : Exactly c k) : real c = "0" ↔ k = 0 := by
  constructor
  · intro hzero
    obtain ⟨y, hread, hy⟩ := readsAs_integer hc
    have htext := congrArg String.toList (real_eq_signed hc)
    rw [hzero, toList_signed] at htext
    split_ifs at htext
    · cases htext
    · rw [List.nil_append] at htext
      rw [← htext] at hread
      exact abs_eq_zero.mp (by exact_mod_cast value_of_readsAs (n := 0) (by norm_num) hread hy)
  · rintro rfl
    rw [real_of_integer hc, if_pos rfl]

end Integers

end Display

end Univariate
