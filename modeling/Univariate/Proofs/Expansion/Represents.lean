import Univariate.Proofs.Binary64.Integers
import Univariate.Proofs.Expansion.Bounds
import Univariate.Proofs.Expansion.Exact

/-!
# Degrees, products and powers of represented polynomials

An expansion *represents* an integer polynomial when its slots are in
order, denote the polynomial, and have taken in less than `2⁴⁹`.  Such an
expansion knows the degree of its polynomial, so the degree limit of
products and powers is a limit on true degrees.

* `Represents.topDegree_eq` — the highest live slot is the degree;
* `Represents.mul`, `mul_over_limit` — products within and over the limit;
* `Represents.powLoop`, `Represents.pow` — square and multiply computes
  the power, and its inner products never exceed a limit that the power
  itself respects;
* `Represents.toNormalForm_eq` — the terms left in the end.
-/

namespace Univariate

open Binary64 Polynomial

/-- The nonzero terms of an integer polynomial, highest degree first, with
their coefficients as numbers. -/
noncomputable def NormalForm.ofPolynomial (f : ℤ[X]) : NormalForm Float :=
  ⟨(f.support.sort (· ≥ ·)).map fun d => (d, Float.ofInt (f.coeff d))⟩

namespace Expansion

/-- The slots are in order and hold the coefficients of a polynomial, and
less than `2⁴⁹` went into them. -/
structure Represents (p : Expansion Float) (f : ℤ[X]) (b : ℕ) : Prop where
  ascending : p.Ascending
  denotes : p.Denotes f b
  lt : b < 2 ^ 49

variable {p q : Expansion Float} {f g : ℤ[X]} {b c limit : ℕ}

/-! ## Coefficients -/

/-- Below all slots there are no coefficients. -/
theorem Denotes.coeff_eq_zero {k : ℕ} (h : Denotes p f b) (hp : ∀ s ∈ p, s.1 ≠ k) :
    f.coeff k = 0 := by
  induction h with
  | nil c => exact coeff_zero k
  | @cons d m b c a s p f hs _ hc ih =>
      rw [List.forall_mem_cons] at hp
      rw [coeff_add, coeff_monomial, if_neg hp.1, ih hp.2, add_zero]

/-- A slot holds the coefficient of its degree. -/
theorem Denotes.coeff_of_mem {d : ℕ} {s : Slot Float} (h : Denotes p f b)
    (hp : p.Ascending) (hmem : (d, s) ∈ p) : ∃ m ≤ b, s.Exact (f.coeff d) m := by
  induction h with
  | nil c => cases hmem
  | @cons e m b c a t p f ht hf hc ih =>
      obtain ⟨habove, hp⟩ := ascending_cons.mp hp
      rw [coeff_add, coeff_monomial]
      rcases List.mem_cons.mp hmem with heq | hmem
      · obtain ⟨rfl, rfl⟩ := Prod.mk.inj heq
        rw [if_pos rfl, hf.coeff_eq_zero fun s hs => (habove s hs).ne', add_zero]
        exact ⟨m, by omega, ht⟩
      · obtain ⟨n, hn, hs⟩ := ih hp hmem
        rw [if_neg (habove _ hmem).ne, zero_add]
        exact ⟨n, by omega, hs⟩

/-- Only the slots have coefficients. -/
theorem Denotes.exists_mem {d : ℕ} (h : Denotes p f b) (hd : f.coeff d ≠ 0) :
    ∃ s, (d, s) ∈ p := by
  by_contra hno
  refine hd (h.coeff_eq_zero fun s hs heq => hno ⟨s.2, ?_⟩)
  rw [← heq]
  exact hs

namespace Represents

/-- The live slots are the nonzero terms. -/
theorem isLive_iff {d : ℕ} {s : Slot Float} (h : Represents p f b) (hmem : (d, s) ∈ p) :
    s.isLive = true ↔ f.coeff d ≠ 0 := by
  obtain ⟨m, hm, hs⟩ := h.denotes.coeff_of_mem h.ascending hmem
  exact hs.isLive_iff (hm.trans_lt h.lt)

/-- All coefficients lie within the bound of magnitudes. -/
theorem natAbs_coeff_lt (h : Represents p f b) (d : ℕ) : (f.coeff d).natAbs < 2 ^ 49 := by
  by_cases hd : f.coeff d = 0
  · rw [hd]
    norm_num
  · obtain ⟨s, hs⟩ := h.denotes.exists_mem hd
    obtain ⟨m, hm, hs⟩ := h.denotes.coeff_of_mem h.ascending hs
    exact (hs.natAbs_le.trans hm).trans_lt h.lt

/-- All coefficients are binary numbers. -/
theorem exactly_coeff (h : Represents p f b) (d : ℕ) :
    Exactly (Float.ofInt (f.coeff d)) (f.coeff d) := by
  refine exactly_ofInt ?_
  rw [Int.abs_eq_natAbs]
  exact_mod_cast (h.natAbs_coeff_lt d).trans (by norm_num)

/-- **The degree of the highest live slot is the degree of the
polynomial.** -/
theorem topDegree_eq (h : Represents p f b) : p.topDegree = f.natDegree := by
  refine le_antisymm (topDegree_le fun s hs => ?_)
    (natDegree_le_iff_coeff_eq_zero.mpr fun d hd => ?_)
  · obtain ⟨hmem, hlive⟩ := List.mem_filter.mp hs
    exact le_natDegree_of_ne_zero ((h.isLive_iff hmem).mp hlive)
  · by_contra hne
    obtain ⟨s, hs⟩ := h.denotes.exists_mem hne
    have hlive : (d, s) ∈ p.live := List.mem_filter.mpr ⟨hs, (h.isLive_iff hs).mpr hne⟩
    exact absurd (upTo_topDegree h.ascending _ hlive) (not_le.mpr hd)

/-- **The terms of the normal form are the nonzero terms of the
polynomial.** -/
theorem toNormalForm_eq (h : Represents p f b) :
    p.toNormalForm = NormalForm.ofPolynomial f := by
  have hlive : p.live.Ascending := h.ascending.live
  have hdegrees : (p.live.reverse.map Prod.fst).Pairwise (· > ·) :=
    (List.pairwise_reverse.mpr hlive).map _ fun _ _ hlt => hlt
  have hsupport : (p.live.reverse.map Prod.fst).toFinset = f.support := by
    ext d
    simp only [List.mem_toFinset, List.mem_map, List.mem_reverse, mem_support_iff]
    constructor
    · intro hd
      obtain ⟨⟨e, s⟩, hs, rfl⟩ := hd
      obtain ⟨hmem, hlive⟩ := List.mem_filter.mp hs
      exact (h.isLive_iff hmem).mp hlive
    · intro hd
      obtain ⟨s, hs⟩ := h.denotes.exists_mem hd
      exact ⟨(d, s), List.mem_filter.mpr ⟨hs, (h.isLive_iff hs).mpr hd⟩, rfl⟩
  have hsort : f.support.sort (· ≥ ·) = p.live.reverse.map Prod.fst := by
    rw [← hsupport]
    exact (List.toFinset_sort _ (hdegrees.imp ne_of_gt)).mpr (hdegrees.imp le_of_lt)
  rw [toNormalForm, NormalForm.ofPolynomial, hsort, List.map_map]
  congr 1
  refine List.map_congr_left fun slot hmem => ?_
  obtain ⟨d, s⟩ := slot
  obtain ⟨hmem, hlive⟩ := List.mem_filter.mp (List.mem_reverse.mp hmem)
  obtain ⟨m, hm, hs⟩ := h.denotes.coeff_of_mem h.ascending hmem
  have hne : (f.coeff d : ℚ) ≠ 0 := by exact_mod_cast (h.isLive_iff hmem).mp hlive
  exact congrArg (Prod.mk d) (hs.value.eq_of_ne_zero (h.exactly_coeff d) hne)

/-! ## Sums -/

/-- A single term represents its monomial. -/
theorem single (d : ℕ) {x : Float} {a : ℤ} (h : Exactly x a) (ha : a.natAbs < 2 ^ 49) :
    Represents (Expansion.single d x) (monomial d a) a.natAbs :=
  ⟨ascending_single d x, .single d h, ha⟩

/-- **Sums and differences** represent the sums and differences. -/
theorem addSigned {sign : Float} {k : ℤ} (hf : Represents p f b) (hg : Represents q g c)
    (hbc : b + c < 2 ^ 49) (hsign : Exactly sign k) (hk : k.natAbs = 1) :
    Represents (Expansion.addSigned p q sign) (f + C k * g) (b + c) where
  ascending := ascending_addSigned hf.ascending hg.ascending sign
  denotes := hf.denotes.merge (hg.denotes.withSign (by omega) hsign hk) (by omega)
  lt := hbc

/-- Unit multiples represent the multiples. -/
theorem scale {unit : Float} {k : ℤ} (hf : Represents p f b) (hunit : Exactly unit k)
    (hk : k.natAbs = 1) : Represents (p.scale unit) (C k * f) b where
  ascending := ascending_scale hf.ascending unit
  denotes := hf.denotes.scale (hf.lt.trans (by norm_num)) hunit hk
  lt := hf.lt

/-! ## Products and powers -/

/-- **A product within the limit is the product.** -/
theorem mul (hf : Represents p f b) (hg : Represents q g c) (hbc : b * c < 2 ^ 49)
    (hlimit : f.natDegree + g.natDegree ≤ limit) :
    ∃ r, Expansion.mul limit p q = .ok r ∧ Represents r (f * g) (b * c) := by
  have hwithin : p.topDegree + q.topDegree ≤ limit := by
    rw [hf.topDegree_eq, hg.topDegree_eq]
    exact hlimit
  have hok := mul_eq_ok_iff.mpr ⟨hwithin, rfl⟩
  have hdenotes := (hf.denotes.live hf.lt).foldl_rows hg.denotes (.nil 0) hg.lt (by omega)
  rw [zero_add, Nat.zero_add] at hdenotes
  exact ⟨_, hok, ascending_mul hg.ascending hok, hdenotes, hbc⟩

/-- **A product over the limit** is refused with its degree. -/
theorem mul_over_limit (hf : Represents p f b) (hg : Represents q g c)
    (hlimit : limit < f.natDegree + g.natDegree) :
    Expansion.mul limit p q =
      .error (.domain (.degreeOverLimit (f.natDegree + g.natDegree) limit)) := by
  rw [Expansion.mul, hf.topDegree_eq, hg.topDegree_eq]
  exact if_pos hlimit

/-- Splitting off the lowest bit does not raise the degree. -/
theorem natDegree_half_le (f g : ℤ[X]) (n : ℕ) :
    (if n % 2 = 1 then g * f else g).natDegree + (f * f).natDegree * (n / 2) ≤
      g.natDegree + f.natDegree * n := by
  have hsquare : (f * f).natDegree * (n / 2) ≤ f.natDegree * (2 * (n / 2)) := by
    rw [← mul_assoc, mul_two]
    exact Nat.mul_le_mul_right _ natDegree_mul_le
  have hbit : (if n % 2 = 1 then g * f else g).natDegree ≤
      g.natDegree + f.natDegree * (n % 2) := by
    rcases Nat.mod_two_eq_zero_or_one n with h | h
    · rw [if_neg (by omega), h, mul_zero, add_zero]
    · rw [if_pos h, h, mul_one]
      exact natDegree_mul_le
  calc
    _ ≤ g.natDegree + f.natDegree * (n % 2) + f.natDegree * (2 * (n / 2)) :=
      Nat.add_le_add hbit hsquare
    _ = g.natDegree + f.natDegree * n := by
      rw [add_assoc, ← mul_add, Nat.mod_add_div]

/-- **Square and multiply.**  While the final power fits, so do all
products on the way. -/
theorem powLoop {result square : Expansion Float} {n : ℕ} (hg : Represents result g b)
    (hf : Represents square f c) (hpow : c ^ n < 2 ^ 49) (hmul : b * c ^ n < 2 ^ 49)
    (hlimit : g.natDegree + f.natDegree * n ≤ limit) :
    ∃ r, Expansion.powLoop limit result square n = .ok r ∧
      Represents r (g * f ^ n) (b * c ^ n) := by
  induction n using Nat.strong_induction_on generalizing result square g f b c with
  | _ n ih =>
      by_cases hn : n = 0
      · subst hn
        rw [Expansion.powLoop, if_pos rfl, pow_zero, mul_one, pow_zero, mul_one]
        exact ⟨result, rfl, hg⟩
      have hself : c ≤ c ^ n := Nat.le_self_pow hn c
      have hdegree : f.natDegree ≤ f.natDegree * n :=
        Nat.le_mul_of_pos_right _ (Nat.pos_of_ne_zero hn)
      -- The lowest bit.
      have hbit : ∃ product,
          (if n % 2 = 1 then Expansion.mul limit result square else .ok result) = .ok product ∧
            Represents product (if n % 2 = 1 then g * f else g)
              (if n % 2 = 1 then b * c else b) := by
        by_cases hodd : n % 2 = 1
        · simp only [if_pos hodd]
          exact hg.mul hf ((Nat.mul_le_mul_left b hself).trans_lt hmul) (by omega)
        · simp only [if_neg hodd]
          exact ⟨result, rfl, hg⟩
      obtain ⟨product, hproduct, hrepresents⟩ := hbit
      rw [powLoop_eq hn, hproduct, ← mul_pow_halves g f n, ← mul_pow_halves b c n]
      by_cases hhalf : n / 2 = 0
      · rw [hhalf, pow_zero, mul_one, pow_zero, mul_one]
        exact ⟨product, rfl, hrepresents⟩
      -- The bits above it.
      have htwice : f.natDegree + f.natDegree ≤ f.natDegree * n := by
        rw [← mul_two]
        exact Nat.mul_le_mul_left _ (by omega)
      have hsquare : c * c ≤ (c * c) ^ (n / 2) := Nat.le_self_pow hhalf _
      have hsmaller := sq_pow_half_le c hhalf
      have hfits : f.natDegree + f.natDegree ≤ limit := by omega
      obtain ⟨next, hnext, hrepresents'⟩ := hf.mul hf (by omega) hfits
      refine (ih (n / 2) (by omega) hrepresents hrepresents' (by omega) ?_ ?_).imp
        fun r hr => ⟨?_, hr.2⟩
      · rw [mul_pow_halves]
        exact hmul
      · exact (natDegree_half_le f g n).trans hlimit
      · show (if n / 2 = 0 then _ else _) = _
        rw [if_neg hhalf, hnext]
        exact hr.1

/-- **A power within the limit is the power.** -/
theorem pow {n : ℕ} (hf : Represents p f b) (hpow : b ^ n < 2 ^ 49)
    (hlimit : f.natDegree * n ≤ limit) :
    ∃ r, Expansion.pow limit p n = .ok r ∧ Represents r (f ^ n) (b ^ n) := by
  have hone : Represents (Expansion.single 0 Scalar.one) 1 1 := by
    have h := Represents.single 0 (a := 1) (by exact_mod_cast exactly_scalar_one) (by norm_num)
    rwa [monomial_zero_one] at h
  have hfits : (1 : ℤ[X]).natDegree + f.natDegree * n ≤ limit := by
    rwa [natDegree_one, Nat.zero_add]
  obtain ⟨r, hr, hrepresents⟩ := hone.powLoop hf hpow (by rwa [one_mul]) hfits
  rw [one_mul, one_mul] at hrepresents
  refine ⟨r, pow_eq_ok_iff.mpr ⟨?_, hr⟩, hrepresents⟩
  rwa [hf.topDegree_eq]

/-- **A power over the limit** is refused with its degree. -/
theorem pow_over_limit {n : ℕ} (hf : Represents p f b) (hlimit : limit < f.natDegree * n) :
    Expansion.pow limit p n =
      .error (.domain (.degreeOverLimit (f.natDegree * n) limit)) := by
  rw [Expansion.pow, hf.topDegree_eq]
  exact if_pos hlimit

end Represents

end Expansion

end Univariate
