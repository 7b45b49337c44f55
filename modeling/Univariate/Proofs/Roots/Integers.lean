import Univariate.Proofs.NormalForm.Polynomial
import Univariate.Proofs.Roots.Product
import Univariate.Settings

/-!
# Polynomials with integer roots

The polynomials whose roots are integers, as far as their coefficients are
numbers: how far apart their roots can be, and what the solver takes for
one root.

* `withRoots`, `unsigned` — the polynomial, and the magnitudes that go into
  its coefficients;
* `abs_lt_of_numeric`, `spans_of_numeric` — its roots are numbers, and not
  too far apart;
* `exists_mergeDistance` — the tolerance of the solver is a number;
* `tolerance_lt_one` — and less than the distance of any two integers, if
  the coefficients are not too large.
-/

namespace Univariate

open Binary64 Polynomial

/-- The polynomial with a leading coefficient and some roots. -/
noncomputable def withRoots (lead : ℤ) (rs : List ℤ) : ℤ[X] :=
  C lead * (rs.map fun r => X - C r).prod

/-- The product of the factors without their signs.  A root at zero counts
as one at one. -/
noncomputable def unsigned (lead : ℤ) (rs : List ℤ) : ℤ[X] :=
  C |lead| * (rs.map fun r => X + C (size r)).prod

variable {lead : ℤ} {rs qs : List ℤ}

/-- The order of the roots does not matter. -/
theorem withRoots_perm (h : rs.Perm qs) : withRoots lead rs = withRoots lead qs := by
  rw [withRoots, (h.map _).prod_eq, withRoots]

theorem unsigned_perm (h : rs.Perm qs) : unsigned lead rs = unsigned lead qs := by
  rw [unsigned, (h.map _).prod_eq, unsigned]

/-! ## The roots -/

/-- The product over the roots is monic. -/
theorem monic_prod (rs : List ℤ) : (rs.map fun r => X - C r).prod.Monic := by
  have h := monic_multisetProd_X_sub_C (rs : Multiset ℤ)
  rwa [Multiset.map_coe, Multiset.prod_coe] at h

/-- **The degree is the number of roots.** -/
theorem natDegree_withRoots (hlead : lead ≠ 0) : (withRoots lead rs).natDegree = rs.length := by
  have h := natDegree_multiset_prod_X_sub_C_eq_card (rs : Multiset ℤ)
  rw [Multiset.map_coe, Multiset.prod_coe, Multiset.coe_card] at h
  rw [withRoots, natDegree_C_mul hlead, h]

/-- The leading coefficient is the one given. -/
theorem leadingCoeff_withRoots (lead : ℤ) (rs : List ℤ) :
    (withRoots lead rs).leadingCoeff = lead := by
  rw [withRoots, leadingCoeff_mul, leadingCoeff_C, (monic_prod rs).leadingCoeff, mul_one]

theorem withRoots_ne_zero (hlead : lead ≠ 0) (rs : List ℤ) : withRoots lead rs ≠ 0 := by
  intro hzero
  have hcoeff := leadingCoeff_withRoots lead rs
  rw [hzero, leadingCoeff_zero] at hcoeff
  exact hlead hcoeff.symm

theorem abs_lead_lt (hf : Numeric (withRoots lead rs)) : |lead| < 2 ^ 53 := by
  have hcoeff := hf (withRoots lead rs).natDegree
  rwa [coeff_natDegree, leadingCoeff_withRoots] at hcoeff

/-- The lowest coefficient of a factor is no smaller than its root. -/
theorem trailingCoeff_X_sub_C (r : ℤ) :
    |r| ≤ |(X - C r).trailingCoeff| ∧ 1 ≤ |(X - C r).trailingCoeff| := by
  by_cases hr : r = 0
  · rw [hr, C_0, sub_zero, trailingCoeff, natTrailingDegree_X, coeff_X_one]
    norm_num
  · have hcoeff : (X - C r).coeff 0 = -r := by simp
    rw [trailingCoeff_eq_coeff_zero (by rw [hcoeff]; exact neg_ne_zero.mpr hr), hcoeff, abs_neg]
    exact ⟨le_rfl, Int.one_le_abs hr⟩

/-- The lowest coefficient is a product over the roots. -/
theorem trailingCoeff_withRoots (lead : ℤ) (rs : List ℤ) :
    (withRoots lead rs).trailingCoeff = lead * (rs.map fun r => (X - C r).trailingCoeff).prod := by
  have hC : (C lead).trailingCoeff = lead := by
    rw [trailingCoeff, natTrailingDegree_C, coeff_C_zero]
  rw [withRoots, trailingCoeff_mul, hC]
  refine congrArg (lead * ·) ?_
  induction rs with
  | nil =>
      have hone : (1 : ℤ[X]).trailingCoeff = 1 := by
        rw [trailingCoeff, natTrailingDegree_one, coeff_one_zero]
      simpa using hone
  | cons r rs ih =>
      rw [List.map_cons, List.prod_cons, trailingCoeff_mul, ih, List.map_cons, List.prod_cons]

/-- No root is larger than the lowest coefficient, which it divides unless
it is zero. -/
theorem abs_lt_of_numeric (hlead : lead ≠ 0) (hf : Numeric (withRoots lead rs)) {r : ℤ}
    (hr : r ∈ rs) : |r| < 2 ^ 53 := by
  have ht0 := mt trailingCoeff_eq_zero.mp (withRoots_ne_zero hlead rs)
  have hdvd : (X - C r).trailingCoeff ∣ (withRoots lead rs).trailingCoeff := by
    rw [trailingCoeff_withRoots]
    exact (List.dvd_prod (List.mem_map_of_mem hr)).mul_left lead
  have hle := Int.le_of_dvd (abs_pos.mpr ht0) ((abs_dvd_abs _ _).mpr hdvd)
  exact (trailingCoeff_X_sub_C r).1.trans_lt (hle.trans_lt (hf _))

/-- **Roots are as close as the coefficients are small**: two of them divide
the lowest coefficient. -/
theorem spans_of_numeric (hlead : lead ≠ 0) (hf : Numeric (withRoots lead rs)) : Spans rs := by
  intro r hr s hs
  by_cases hne : r = s
  · rw [hne, sub_self, abs_zero]
    positivity
  have hs' : s ∈ rs.erase r := (List.mem_erase_of_ne (Ne.symm hne)).mpr hs
  have hperm : rs.Perm (r :: s :: (rs.erase r).erase s) :=
    (List.perm_cons_erase hr).trans ((List.perm_cons_erase hs').cons r)
  have htrailing := trailingCoeff_withRoots lead (r :: s :: (rs.erase r).erase s)
  rw [← withRoots_perm hperm, List.map_cons, List.map_cons, List.prod_cons, List.prod_cons,
    ← mul_assoc, ← mul_assoc, mul_assoc lead, mul_comm lead] at htrailing
  have hdvd := Dvd.intro _ ((mul_assoc _ _ _).symm.trans htrailing.symm)
  have ht0 := mt trailingCoeff_eq_zero.mp (withRoots_ne_zero hlead rs)
  have hle := Int.le_of_dvd (abs_pos.mpr ht0) ((abs_dvd_abs _ _).mpr hdvd)
  rw [abs_mul] at hle
  obtain ⟨hra, ha⟩ := trailingCoeff_X_sub_C r
  obtain ⟨hsb, hb⟩ := trailingCoeff_X_sub_C s
  have hsum : |r| + |s| ≤ 2 ^ 53 := by
    have hproduct := mul_nonneg (sub_nonneg.mpr ha) (sub_nonneg.mpr hb)
    have hlt := hle.trans_lt (hf _)
    linarith
  exact_mod_cast (abs_sub r s).trans hsum

/-! ## The tolerance -/

/-- The number is an integer that is at most `B` times as large as a
leading coefficient. -/
def IsWithin (B : ℚ) (lead : ℤ) (x : Float) : Prop :=
  ∃ a : ℤ, Exactly x a ∧ |(a : ℚ)| ≤ B * |(lead : ℚ)|

variable {B : ℚ} {x y : Float}

/-- The magnitude relative to the leading coefficient. -/
theorem exists_ratio (hB : Representable B) (hx : IsWithin B lead x) (hy : Exactly y lead)
    (hlead : lead ≠ 0) : ∃ q, Exactly (Scalar.abs x / Scalar.abs y) q ∧ q ≤ B := by
  obtain ⟨a, hx, hle⟩ := hx
  have hpos : 0 < |(lead : ℚ)| := abs_pos.mpr (Int.cast_ne_zero.mpr hlead)
  have hquotient : |(a : ℚ)| / |(lead : ℚ)| ≤ B := (div_le_iff₀ hpos).mpr hle
  have hrounded : |rounded (|(a : ℚ)| / |(lead : ℚ)|)| ≤ B :=
    abs_rounded_le hB (by rwa [abs_of_nonneg (by positivity)])
  refine ⟨_, (hx.abs.nearest_div hy.abs hpos.ne').exactly ?_, (le_abs_self _).trans hrounded⟩
  exact hrounded.trans_lt ((le_abs_self B).trans_lt hB.abs_lt)

/-- The largest relative magnitude. -/
theorem exists_largest {lower : List Float} (hB : Representable B)
    (hlower : ∀ x ∈ lower, IsWithin B lead x) (hy : Exactly y lead) (hlead : lead ≠ 0)
    {largest : Float} {q : ℚ} (hlargest : Exactly largest q) (hq : 0 ≤ q) (hqB : q ≤ B) :
    ∃ m, Exactly (lower.foldl (fun largest c =>
      Scalar.max largest (Scalar.abs c / Scalar.abs y)) largest) m ∧ 0 ≤ m ∧ m ≤ B := by
  induction lower generalizing largest q with
  | nil => exact ⟨q, hlargest, hq, hqB⟩
  | cons x lower ih =>
      obtain ⟨hx, hlower⟩ := List.forall_mem_cons.mp hlower
      obtain ⟨ratio, hratio, hle⟩ := exists_ratio hB hx hy hlead
      exact ih hlower (hlargest.max hratio) (hq.trans (le_max_left _ _)) (max_le hqB hle)

/-- **The tolerance for an integer polynomial** is a number, and no more
than a millionth of the bound for the roots. -/
theorem exists_mergeDistance {lower : List Float} (hB0 : 0 ≤ B) (hB : Representable B)
    (hB1 : Representable (1 + B)) (hlower : ∀ x ∈ lower, IsWithin B lead x)
    (hy : Exactly y lead) (hlead : lead ≠ 0) :
    ∃ e, Exactly (Solution.mergeDistance .default (lower ++ [y])) e ∧ 0 ≤ e ∧
      e ≤ rounded ((1 / 10 ^ 6 + 1 / 10 ^ 15) * (1 + B)) := by
  obtain ⟨m, hm, hm0, hmB⟩ :=
    exists_largest hB hlower hy hlead exactly_scalar_zero le_rfl hB0
  have hsum : |rounded (1 + m)| ≤ 1 + B := by
    refine abs_rounded_le hB1 ?_
    rw [abs_of_nonneg (by linarith)]
    linarith
  have hbound : Exactly (Solution.cauchyBound (lower ++ [y])) (rounded (1 + m)) := by
    have hfits := hsum.trans_lt ((le_abs_self _).trans_lt hB1.abs_lt)
    have hadd := (exactly_scalar_one.nearest_add hm).exactly hfits
    rw [Solution.cauchyBound, List.reverse_append, List.reverse_singleton, List.singleton_append]
    simp only [List.reverse_reverse]
    exact hadd
  obtain ⟨τ, hτ, hlow, hhigh⟩ := exists_millionth
  have hτ0 : 0 ≤ τ := le_trans (by norm_num) hlow
  have hmax := hbound.max exactly_scalar_one
  have hmax0 : 0 ≤ max (rounded (1 + m)) 1 := zero_le_one.trans (le_max_right _ _)
  have hmaxB : max (rounded (1 + m)) 1 ≤ 1 + B :=
    max_le ((le_abs_self _).trans hsum) (by linarith)
  refine ⟨_, exists_share hτ hτ0 (hhigh.trans (by norm_num)) hmax hmax0, ?_, ?_⟩
  · rw [rounded_of_nonneg (by positivity)]
    exact roundMag_nonneg _
  · exact rounded_mono (mul_le_mul hhigh hmaxB hmax0 (by norm_num))

/-- A bound on the coefficients of a polynomial holds for those of its normal
form. -/
theorem isWithin_of_mem_coefficients {f : ℤ[X]} (hf : Numeric f)
    (hB : ∀ i, |(f.coeff i : ℚ)| ≤ B * |(lead : ℚ)|) {x : Float}
    (hx : x ∈ (NormalForm.ofPolynomial f).coefficients) : IsWithin B lead x := by
  rcases NormalForm.mem_fillGaps hx with rfl | ⟨t, ht, rfl⟩
  · refine ⟨0, by exact_mod_cast exactly_scalar_zero, ?_⟩
    rw [Int.cast_zero, abs_zero]
    exact (abs_nonneg _).trans (hB 0)
  · rw [List.mem_reverse, NormalForm.mem_ofPolynomial] at ht
    rw [ht.2]
    exact ⟨f.coeff t.1, exactly_ofInt (hf t.1), hB t.1⟩

/-- The tolerance for a polynomial with integer roots. -/
theorem exists_mergeDistance_withRoots (hlead : lead ≠ 0) (hf : Numeric (withRoots lead rs))
    (hB0 : 0 ≤ B) (hB : Representable B) (hB1 : Representable (1 + B))
    (hle : ∀ i, |((withRoots lead rs).coeff i : ℚ)| ≤ B * |(lead : ℚ)|) :
    ∃ e, Exactly (Solution.mergeDistance .default
        (NormalForm.ofPolynomial (withRoots lead rs)).coefficients) e ∧ 0 ≤ e ∧
      e ≤ rounded ((1 / 10 ^ 6 + 1 / 10 ^ 15) * (1 + B)) := by
  obtain ⟨rest, hterms⟩ := NormalForm.exists_terms_ofPolynomial (withRoots_ne_zero hlead rs)
  have hcanonical := NormalForm.canonical_ofPolynomial hf
  obtain ⟨lower, hcoefficients, -⟩ := NormalForm.exists_coefficients hcanonical hterms
  have hwithin : ∀ x ∈ lower, IsWithin B lead x := by
    intro x hx
    refine isWithin_of_mem_coefficients hf hle ?_
    rw [hcoefficients]
    exact List.mem_append_left _ hx
  rw [hcoefficients, leadingCoeff_withRoots]
  exact exists_mergeDistance hB0 hB hB1 hwithin (exactly_ofInt (abs_lead_lt hf)) hlead

/-- The tolerance is a number. -/
theorem exists_tolerance (hlead : lead ≠ 0) (hf : Numeric (withRoots lead rs)) :
    ∃ e, Exactly (Solution.mergeDistance .default
      (NormalForm.ofPolynomial (withRoots lead rs)).coefficients) e ∧ 0 ≤ e := by
  have hB : Representable ((2 : ℚ) ^ 53 - 1) :=
    ⟨2 ^ 53 - 1, 0, by norm_num, by norm_num, by norm_num [maxGridExponent], by norm_num⟩
  have hB1 : Representable (1 + ((2 : ℚ) ^ 53 - 1)) :=
    ⟨1, 53, by norm_num, by norm_num, by norm_num [maxGridExponent], by norm_num⟩
  have hle : ∀ i, |((withRoots lead rs).coeff i : ℚ)| ≤ (2 ^ 53 - 1) * |(lead : ℚ)| := by
    intro i
    have hcoeff : |((withRoots lead rs).coeff i : ℚ)| ≤ 2 ^ 53 - 1 := by
      exact_mod_cast Int.le_sub_one_of_lt (hf i)
    have hone : (1 : ℚ) ≤ |(lead : ℚ)| := by exact_mod_cast Int.one_le_abs hlead
    exact hcoeff.trans (le_mul_of_one_le_right (by norm_num) hone)
  obtain ⟨e, he, he0, -⟩ :=
    exists_mergeDistance_withRoots hlead hf (by norm_num) hB hB1 hle
  exact ⟨e, he, he0⟩

/-- **The tolerance is below the distance of any two integers** as long as
no coefficient is a million times as large as the leading one, or close to
that. -/
theorem tolerance_lt_one (hlead : lead ≠ 0) (hf : Numeric (withRoots lead rs))
    (hle : ∀ i, |(withRoots lead rs).coeff i| ≤ 999990 * |lead|) {e : ℚ}
    (he : Exactly (Solution.mergeDistance .default
      (NormalForm.ofPolynomial (withRoots lead rs)).coefficients) e) : e < 1 := by
  have hB : Representable (999990 : ℚ) := by
    exact_mod_cast representable_int (n := 999990) (by norm_num)
  have hB1 : Representable (1 + 999990 : ℚ) := by
    exact_mod_cast representable_int (n := 1 + 999990) (by norm_num)
  obtain ⟨d, hd, -, hde⟩ := exists_mergeDistance_withRoots hlead hf (by norm_num) hB hB1
    fun i => by exact_mod_cast hle i
  have hrep : Representable ((2 ^ 20 - 1) / 2 ^ 20 : ℚ) :=
    ⟨2 ^ 20 - 1, -20, by norm_num, by norm_num, by norm_num [maxGridExponent], by norm_num⟩
  have hmono := rounded_mono
    (by norm_num : (1 / 10 ^ 6 + 1 / 10 ^ 15) * (1 + 999990) ≤ ((2 ^ 20 - 1) / 2 ^ 20 : ℚ))
  rw [rounded_eq hrep] at hmono
  rw [he.unique hd]
  exact (hde.trans hmono).trans_lt (by norm_num)

end Univariate
