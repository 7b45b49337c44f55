import Univariate.Proofs.NormalForm.Coefficients
import Univariate.Proofs.NormalForm.Integral
import Univariate.Proofs.NormalForm.Rendering

/-!
# Writing a normal form and reading it back

The text of a normal form is normalized to the normal form again, up to
what its text says of the coefficients: one that is shown as it is comes
back, integers among them, and any other comes back within a millionth of
its size, or of one.

* `exists_shown` — how far a coefficient is from what it reads as;
* `displayExact_of_integer` — integers read as themselves;
* `closeTo_of_close` — the test for closeness, in exact arithmetic;
* `NormalForm.readBack_same_iff`, `NormalForm.readBack_approxEq` — the two
  comparisons of a normal form with what it reads as;
* `NormalForm.parse_render` — writing and reading.
-/

namespace Univariate

open Binary64

namespace Display

/-- The text of the magnitude reads as the magnitude. -/
def DisplayExact (c : Float) : Prop := Decimal.read? (real c.abs).toList = some c.abs

variable {c : Float} {q : ℚ}

/-- What a magnitude reads as, with the sign of the number. -/
theorem exists_shown_eq (hc : Exactly c q) :
    ∃ y r, Decimal.read? (real c.abs).toList = some y ∧ Exactly y r ∧
      shown c = (if q < 0 then -y else y) ∧ |r - abs q| ≤ 7 / 10 ^ 7 * max |q| 1 ∧
      ((∃ n : ℕ, |q| = n) → r = |q|) := by
  obtain ⟨y, r, hread, hy, -, hclose, hinteger⟩ := readsAs_real hc
  have hsign : c < 0 ↔ q < 0 := hc.lt_iff exactly_zero
  refine ⟨y, r, hread.read, hy, ?_, hclose, hinteger⟩
  simp only [shown, hread.read, Option.getD_some, hsign]

/-- **A coefficient reads as a number close to it.** -/
theorem exists_shown (hc : Exactly c q) :
    ∃ r, Exactly (shown c) r ∧ |r - q| ≤ 7 / 10 ^ 7 * max |q| 1 := by
  obtain ⟨y, r, -, hy, hshown, hclose, -⟩ := exists_shown_eq hc
  rw [hshown]
  by_cases hq : q < 0
  · rw [if_pos hq]
    refine ⟨-r, hy.neg, ?_⟩
    have hneg : -r - q = -(r - abs q) := by
      rw [abs_of_neg hq]
      ring
    rwa [hneg, abs_neg]
  · rw [if_neg hq]
    refine ⟨r, hy, ?_⟩
    rwa [abs_of_nonneg (not_lt.mp hq)] at hclose ⊢

/-- An integer reads as itself. -/
theorem displayExact_of_integer (hc : Exactly c q) (hq : q ≠ 0) (hinteger : ∃ n : ℤ, q = n) :
    DisplayExact c := by
  obtain ⟨y, r, hread, hy, -, -, hnatural⟩ := exists_shown_eq hc
  have hr : r = |q| := by
    obtain ⟨n, rfl⟩ := hinteger
    exact hnatural ⟨n.natAbs, by rw [Nat.cast_natAbs, Int.cast_abs]⟩
  rw [hr] at hy
  rw [DisplayExact, hread, hy.eq_of_ne_zero hc.abs (abs_ne_zero.mpr hq)]

/-- Reading the magnitude back and reading the coefficient back are the
same. -/
theorem displayExact_iff (hc : Exactly c q) (hq : q ≠ 0) :
    DisplayExact c ↔ Exactly (shown c) q := by
  obtain ⟨y, r, hread, hy, hshown, -⟩ := exists_shown_eq hc
  have hexact : DisplayExact c ↔ r = |q| := by
    rw [DisplayExact, hread, Option.some.injEq]
    constructor
    · rintro rfl
      exact hy.unique hc.abs
    · rintro rfl
      exact hy.eq_of_ne_zero hc.abs (abs_ne_zero.mpr hq)
  rw [hexact, hshown]
  by_cases hneg : q < 0
  · rw [if_pos hneg, abs_of_neg hneg]
    constructor
    · rintro rfl
      simpa using hy.neg
    · intro h
      rw [← hy.neg.unique h, neg_neg]
  · rw [if_neg hneg, abs_of_nonneg (not_lt.mp hneg)]
    exact ⟨fun h => h ▸ hy, hy.unique⟩

end Display

namespace NormalForm

open Display

/-- The coefficients are close if they are, in exact arithmetic, within a
share that leaves some room for rounding. -/
theorem closeTo_of_close {a b : Float} {α β κ : ℚ} (ha : Exactly a α) (hb : Exactly b β)
    (hκ : κ ≤ 1 / 10 ^ 6 - 1 / 10 ^ 15) (h : |α - β| ≤ κ * max |β| 1) :
    closeTo (Float.ofScientific 1 true 6) a b = true := by
  obtain ⟨τ, hτ, hlow, hhigh⟩ := exists_millionth
  have hτκ : κ ≤ τ := hκ.trans hlow
  have hτ0 : 0 ≤ τ := le_trans (by norm_num) hlow
  have hτ1 : τ ≤ 1 := hhigh.trans (by norm_num)
  have hM := (ha.abs.max hb.abs).max exactly_scalar_one
  set M := max (max |α| |β|) 1 with hMdef
  have hM0 : 0 ≤ M := le_trans zero_le_one (le_max_right _ _)
  have hshare := exists_share hτ hτ0 hτ1 hM hM0
  have hbound : |α - β| ≤ τ * M :=
    calc |α - β| ≤ κ * max |β| 1 := h
      _ ≤ τ * M := by
        gcongr
        exact max_le_max_right 1 (le_max_right _ _)
  have hmono : |rounded (α - β)| ≤ rounded (τ * M) := by
    rw [abs_rounded, ← rounded_of_nonneg (abs_nonneg _)]
    exact rounded_mono hbound
  have hfits : |rounded (α - β)| < 2 ^ 1024 :=
    (hmono.trans (le_abs_self _)).trans_lt hshare.representable.abs_lt
  have hdistance := ((ha.nearest_sub hb).exactly hfits).abs
  exact (hdistance.le_iff hshare).mpr hmono

/-! ## Reading a normal form back -/

variable {p : NormalForm Float}

/-- What is read back are the terms as shown, less those that are shown as
zero. -/
theorem readBack_terms (p : NormalForm Float) :
    p.readBack.terms = (p.terms.map shownTerm).filter fun t => !Scalar.eq t.2 Scalar.zero := by
  rw [readBack, ofAscending, List.reverse_reverse]

/-- The degrees decrease still. -/
theorem readBack_descending (hp : p.terms.Pairwise fun s t => t.1 < s.1) :
    p.readBack.terms.Pairwise fun s t => t.1 < s.1 := by
  rw [readBack_terms]
  exact List.Pairwise.filter _ (hp.map shownTerm fun _ _ hlt => hlt)

/-- The coefficient that is read has the value that is shown, also where a
term is left out. -/
theorem exactly_readBack_coefficient (hp : p.terms.Pairwise fun s t => t.1 < s.1) {t : ℕ × Float}
    (ht : t ∈ p.terms) {r : ℚ} (hr : Exactly (shown t.2) r) :
    Exactly (p.readBack.coefficient t.1) r := by
  have hzero := hr.eq_zero_iff
  have hmap : shownTerm t ∈ p.terms.map shownTerm := List.mem_map_of_mem ht
  by_cases h : r = 0
  · have hnone : ∀ s ∈ p.readBack.terms, s.1 ≠ t.1 := by
      intro s hs hdegree
      rw [readBack_terms] at hs
      obtain ⟨hs, hkept⟩ := List.mem_filter.mp hs
      obtain ⟨u, hu, rfl⟩ := List.mem_map.mp hs
      have hut : u = t := by
        have hcu := coefficient_of_mem hp hu
        have hct := coefficient_of_mem hp ht
        rw [show u.1 = t.1 from hdegree] at hcu
        exact Prod.ext hdegree (hcu.symm.trans hct)
      rw [hut] at hkept
      simp [shownTerm, hzero.mpr h] at hkept
    rw [coefficient_of_forall_ne hnone, h]
    exact exactly_scalar_zero
  · have hmem : (t.1, shown t.2) ∈ p.readBack.terms := by
      rw [readBack_terms]
      exact List.mem_filter.mpr ⟨hmap, by simpa using mt hzero.mp h⟩
    rw [coefficient_of_mem (readBack_descending hp) hmem]
    exact hr

/-- **What is read is close to what was written.** -/
theorem readBack_approxEq (hp : p.terms.Pairwise fun s t => t.1 < s.1)
    (hfinite : ∀ t ∈ p.terms, t.2.isFinite = true) :
    p.readBack.approxEq p (Float.ofScientific 1 true 6) = true := by
  have hclose : ∀ t ∈ p.terms, closeTo (Float.ofScientific 1 true 6)
      (p.readBack.coefficient t.1) (p.coefficient t.1) = true := by
    intro t ht
    obtain ⟨q, hq⟩ := (isFinite_iff t.2).mp (hfinite t ht)
    obtain ⟨r, hr, h⟩ := exists_shown hq
    have hcoefficient : p.coefficient t.1 = t.2 := coefficient_of_mem hp ht
    rw [hcoefficient]
    exact closeTo_of_close (exactly_readBack_coefficient hp ht hr) hq (by norm_num) h
  rw [approxEq, List.all_eq_true]
  intro d hd
  obtain ⟨t, ht, rfl⟩ := List.mem_map.mp hd
  rcases List.mem_append.mp ht with ht | ht
  · rw [readBack_terms] at ht
    obtain ⟨s, hs, rfl⟩ := List.mem_map.mp (List.mem_of_mem_filter ht)
    exact hclose s hs
  · exact hclose t ht

/-- A canonical form has no term with the value zero. -/
theorem Canonical.ne_zero (hp : p.Canonical) {t : ℕ × Float} (ht : t ∈ p.terms) {q : ℚ}
    (hq : Exactly t.2 q) : q ≠ 0 := by
  intro hzero
  have htrue := hq.eq_zero_iff.mpr hzero
  rw [hp.2 t ht] at htrue
  cases htrue

/-- Of a coefficient that is not zero, equality of numbers is equality. -/
theorem displayExact_iff_eq (hp : p.Canonical) (hfinite : ∀ t ∈ p.terms, t.2.isFinite = true)
    {t : ℕ × Float} (ht : t ∈ p.terms) :
    (DisplayExact t.2 ↔ Scalar.eq (shown t.2) t.2 = true) ∧
      (DisplayExact t.2 → shown t.2 = t.2) := by
  obtain ⟨q, hq⟩ := (isFinite_iff t.2).mp (hfinite t ht)
  have hne := hp.ne_zero ht hq
  obtain ⟨r, hr, -⟩ := exists_shown hq
  have hvalue : Exactly (shown t.2) q ↔ r = q := ⟨hr.unique, fun h => h ▸ hr⟩
  refine ⟨?_, fun h => ((displayExact_iff hq hne).mp h).eq_of_ne_zero hq hne⟩
  rw [displayExact_iff hq hne, hvalue]
  exact (hr.beq_iff hq).symm

/-- **If every coefficient is shown exactly, the form is read back.** -/
theorem readBack_eq (hp : p.Canonical) (hfinite : ∀ t ∈ p.terms, t.2.isFinite = true)
    (hexact : ∀ t ∈ p.terms, DisplayExact t.2) : p.readBack = p := by
  have hshown : p.terms.map shownTerm = p.terms := by
    refine (List.map_congr_left fun t ht => ?_).trans (List.map_id p.terms)
    exact Prod.ext rfl ((displayExact_iff_eq hp hfinite ht).2 (hexact t ht))
  have hterms : p.readBack.terms = p.terms := by
    rw [readBack_terms, hshown, List.filter_eq_self]
    intro t ht
    rw [hp.2 t ht]
    rfl
  exact congrArg NormalForm.mk hterms

/-- **The same normal form is read exactly when every coefficient is shown
as it is.** -/
theorem readBack_same_iff (hp : p.Canonical) (hfinite : ∀ t ∈ p.terms, t.2.isFinite = true) :
    p.readBack.same p = true ↔ ∀ t ∈ p.terms, DisplayExact t.2 := by
  constructor
  · intro hsame
    have hterms := (same_iff _ _).mp hsame
    rw [readBack_terms] at hterms
    -- Nothing was left out, because there are as many terms as before.
    have hall : (p.terms.map shownTerm).filter (fun t => !Scalar.eq t.2 Scalar.zero) =
        p.terms.map shownTerm := by
      refine List.filter_sublist.eq_of_length ?_
      rw [hterms.length_eq, List.length_map]
    rw [hall, List.forall₂_map_left_iff, List.forall₂_same] at hterms
    intro t ht
    exact (displayExact_iff_eq hp hfinite ht).1.mpr (hterms t ht).2
  · intro hexact
    rw [readBack_eq hp hfinite hexact, same_iff, List.forall₂_same]
    intro t ht
    obtain ⟨q, hq⟩ := (isFinite_iff t.2).mp (hfinite t ht)
    exact ⟨rfl, (hq.beq_iff hq).mpr rfl⟩

/-- **Writing a normal form and reading it back.**  The text of a normal
form with finite coefficients is an expression, and its normal form, within
any limit that the degrees respect, is close to the one that was written.
It is the same one exactly when every coefficient is shown as it is, as
every integer is. -/
theorem parse_render (hp : p.Canonical) (hfinite : ∀ t ∈ p.terms, t.2.isFinite = true)
    (hmax : ∀ t ∈ p.terms, t.1 ≤ maxExponent) {limit : ℕ} (hlimit : ∀ t ∈ p.terms, t.1 ≤ limit) :
    ∃ t q, Expr.parse "x" (p.render "x") = .ok t ∧ t.normalize limit = .ok q ∧
      q.approxEq p (Float.ofScientific 1 true 6) = true ∧
      (q.same p = true ↔ ∀ t ∈ p.terms, DisplayExact t.2) ∧
      ((∀ t ∈ p.terms, DisplayExact t.2) → q = p) ∧
      ∀ t ∈ p.terms, (∃ n : ℤ, Exactly t.2 n) → DisplayExact t.2 := by
  obtain ⟨t, hparse, hnormalize⟩ := exists_parse_render hp.1 hfinite hmax hlimit
  refine ⟨t, p.readBack, hparse, hnormalize, readBack_approxEq hp.1 hfinite,
    readBack_same_iff hp hfinite, readBack_eq hp hfinite, ?_⟩
  intro t ht hinteger
  obtain ⟨n, hn⟩ := hinteger
  exact displayExact_of_integer hn (hp.ne_zero ht hn) ⟨n, rfl⟩

/-- `x^2 - 0.5x + 3` is read as it was written. -/
theorem parse_render_quadratic :
    let p : NormalForm Float := ⟨[(2, 1), (1, -0.5), (0, 3)]⟩
    p.Canonical ∧ (∀ t ∈ p.terms, t.2.isFinite = true) ∧ (∀ t ∈ p.terms, t.1 ≤ maxExponent) ∧
      (∀ t ∈ p.terms, t.1 ≤ 2) ∧
      ∃ t q, Expr.parse "x" (p.render "x") = .ok t ∧ t.normalize 2 = .ok q ∧
        q.approxEq p (Float.ofScientific 1 true 6) = true ∧ q.same p = true ∧ q = p := by
  intro p
  have hnonzero : ∀ t ∈ p.terms, Scalar.eq t.2 Scalar.zero = false := by decide
  have hp : p.Canonical := ⟨by simp [p], hnonzero⟩
  have hfinite : ∀ t ∈ p.terms, t.2.isFinite = true := by decide
  have hmax : ∀ t ∈ p.terms, t.1 ≤ maxExponent := by decide
  have hlimit : ∀ t ∈ p.terms, t.1 ≤ 2 := by decide
  have hexact : ∀ t ∈ p.terms, DisplayExact t.2 := by
    simp only [p, List.forall_mem_cons]
    exact ⟨rfl, rfl, rfl, by simp⟩
  obtain ⟨t, q, hparse, hnormalize, hclose, hsame, hequal, -⟩ :=
    parse_render hp hfinite hmax hlimit
  exact ⟨hp, hfinite, hmax, hlimit, t, q, hparse, hnormalize, hclose, hsame.mpr hexact,
    hequal hexact⟩

end NormalForm

end Univariate
