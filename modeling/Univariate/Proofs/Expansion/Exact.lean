import Mathlib
import Univariate.Proofs.Binary64.Integers
import Univariate.Proofs.Expansion.Ascending

/-!
# Expansions of integer polynomials

As long as no more than `2⁴⁹` goes into its slots, an expansion over
binary64 is an integer polynomial, and its arithmetic is that of `ℤ[X]`.
Below this bound the threshold of a slot is smaller than one, so that the
live slots are exactly those whose integer is not zero.

* `Slot.Exact` — a slot that holds an integer, and `isLive_iff`;
* `Denotes` — the polynomial of an expansion, and a bound for everything
  that went into it;
* `Denotes.merge`, `Denotes.row`, `Denotes.foldl_rows` — the arithmetic.
-/

namespace Univariate

open Binary64 Polynomial

/-! ## Units -/

/-- The zero of the arithmetic stands for zero. -/
theorem exactly_scalar_zero : Exactly (Scalar.zero : Float) 0 := exactly_zero

/-- The one of the arithmetic stands for one. -/
theorem exactly_scalar_one : Exactly (Scalar.one : Float) 1 := exactly_one

/-- The test for zero finds what is zero. -/
theorem Binary64.Exactly.eq_zero_iff {x : Float} {q : ℚ} (hx : Exactly x q) :
    Scalar.eq x Scalar.zero = true ↔ q = 0 :=
  hx.beq_iff exactly_scalar_zero

/-! ## Slots -/

/-- The slot holds an integer, and contributions of some total magnitude
went into it. -/
structure Slot.Exact (s : Slot Float) (a : ℤ) (m : ℕ) : Prop where
  value : Exactly s.value a
  magnitude : Exactly s.magnitude m
  natAbs_le : a.natAbs ≤ m

namespace Slot

variable {s t : Slot Float} {a b : ℤ} {m n : ℕ}

/-- A single contribution is exact. -/
theorem Exact.single {x : Float} (h : Exactly x a) : (Slot.single x).Exact a a.natAbs where
  value := h
  magnitude := by
    have habs := h.abs
    rw [← Int.cast_abs, Int.abs_eq_natAbs] at habs
    exact habs
  natAbs_le := le_rfl

/-- No contribution at all is exact. -/
theorem exact_zero : (Slot.zero : Slot Float).Exact 0 0 where
  value := by rw [Int.cast_zero]; exact exactly_scalar_zero
  magnitude := by rw [Nat.cast_zero]; exact exactly_scalar_zero
  natAbs_le := le_rfl

/-- **Adding is exact** while the magnitudes fit. -/
theorem Exact.add (hs : s.Exact a m) (ht : t.Exact b n) (h : m + n < 2 ^ 53) :
    (s.add t).Exact (a + b) (m + n) := by
  have hle : (a + b).natAbs ≤ m + n :=
    (Int.natAbs_add_le a b).trans (add_le_add hs.natAbs_le ht.natAbs_le)
  exact ⟨hs.value.add_int ht.value (hle.trans_lt h), hs.magnitude.add_nat ht.magnitude h, hle⟩

/-- **Multiplying is exact** while the magnitudes fit. -/
theorem Exact.mul (hs : s.Exact a m) (ht : t.Exact b n) (h : m * n < 2 ^ 53) :
    (s.mul t).Exact (a * b) (m * n) := by
  have hle : (a * b).natAbs ≤ m * n :=
    (Int.natAbs_mul a b).le.trans (Nat.mul_le_mul hs.natAbs_le ht.natAbs_le)
  exact ⟨hs.value.mul_int ht.value (hle.trans_lt h), hs.magnitude.mul_nat ht.magnitude h, hle⟩

/-- Adding to nothing is exact. -/
theorem Exact.zero_add (hs : s.Exact a m) (h : m < 2 ^ 53) : (Slot.zero.add s).Exact a m := by
  simpa using exact_zero.add hs (by simpa using h)

/-- Eight units in the last place of one. -/
theorem exactly_tolerance :
    Exactly (Scalar.ofNat cancellationUlps * Scalar.epsilon) (2 ^ (-49 : ℤ)) := by
  have hbits : (Scalar.ofNat cancellationUlps * Scalar.epsilon : Float) =
      Float.ofBits 0x3CE0000000000000 := by rfl
  have hunpack : (Float.ofBits 0x3CE0000000000000).toModel.unpack =
      .finite .positive (2 ^ 52) (-101) (by norm_num) := by rfl
  rw [hbits, Exactly, hunpack, rat?, Option.some.injEq]
  norm_num [Float.Model.UnpackedFloat.Sign.apply]

/-- **The live slots are those that have not cancelled.**  Below `2⁴⁹` the
threshold stays under one. -/
theorem Exact.isLive_iff (hs : s.Exact a m) (hm : m < 2 ^ 49) : s.isLive = true ↔ a ≠ 0 := by
  have hrepresentable : Representable (2 ^ (-49 : ℤ) * (m : ℚ)) :=
    ⟨m, -49, by rw [abs_of_nonneg (by positivity)]; exact_mod_cast hm.trans (by norm_num),
      by norm_num, by norm_num [maxGridExponent], by push_cast; ring⟩
  have hthreshold := exactly_tolerance.mul hs.magnitude hrepresentable
  rw [Slot.isLive]
  refine (hthreshold.lt_iff hs.value.abs).trans ?_
  have hbelow : 2 ^ (-49 : ℤ) * (m : ℚ) < 1 := by
    have hmq : (m : ℚ) < 2 ^ 49 := by exact_mod_cast hm
    rw [zpow_neg, inv_mul_lt_iff₀ (by positivity), mul_one]
    exact_mod_cast hmq
  constructor
  · intro hlt ha
    subst ha
    rw [Int.cast_zero, abs_zero] at hlt
    exact absurd hlt (not_lt.mpr (by positivity))
  · intro ha
    have hone : (1 : ℚ) ≤ |(a : ℚ)| := by exact_mod_cast Int.one_le_abs ha
    exact hbelow.trans_le hone

end Slot

namespace Expansion

/-! ## The polynomial of an expansion -/

/-- The slots hold the coefficients of a polynomial, and contributions of
at most some total magnitude went into them.  A degree may occur more than
once, and hold zero. -/
inductive Denotes : Expansion Float → ℤ[X] → ℕ → Prop
  | nil (c : ℕ) : Denotes [] 0 c
  | cons {d m b c : ℕ} {a : ℤ} {s : Slot Float} {p : Expansion Float} {f : ℤ[X]}
      (hs : s.Exact a m) (hp : Denotes p f b) (hc : m + b ≤ c) :
      Denotes ((d, s) :: p) (monomial d a + f) c

variable {p q : Expansion Float} {f g : ℤ[X]} {b c : ℕ}

/-- A larger bound of the magnitudes holds too. -/
theorem Denotes.mono (h : Denotes p f b) (hbc : b ≤ c) : Denotes p f c := by
  cases h with
  | nil => exact .nil c
  | cons hs hp hb => exact .cons hs hp (hb.trans hbc)

/-- A single term denotes its monomial. -/
theorem Denotes.single (d : ℕ) {x : Float} {a : ℤ} (h : Exactly x a) :
    Denotes (Expansion.single d x) (monomial d a) a.natAbs := by
  have h := Denotes.cons (d := d) (.single h) (.nil 0) le_rfl
  rwa [add_zero] at h

/-- Multiplying every slot multiplies the polynomial. -/
theorem Denotes.map {k : ℤ} {l : ℕ} (change : Slot Float → Slot Float) (h : Denotes p f b)
    (hchange : ∀ {s a m}, m ≤ b → s.Exact a m → (change s).Exact (k * a) (l * m)) :
    Denotes (p.map fun (d, s) => (d, change s)) (C k * f) (l * b) := by
  induction h with
  | nil c => simpa using Denotes.nil (l * c)
  | @cons d m b c a s p f hs hp hc ih =>
      rw [mul_add, C_mul_monomial]
      refine .cons (hchange (by omega) hs) (ih fun hm => hchange (by omega)) ?_
      rw [← mul_add]
      exact Nat.mul_le_mul_left l hc

/-- **Merging adds.** -/
theorem Denotes.merge (hf : Denotes p f b) (hg : Denotes q g c) (hbc : b + c < 2 ^ 53) :
    Denotes (Expansion.merge p q) (f + g) (b + c) := by
  fun_induction Expansion.merge p q generalizing f g b c with
  | case1 q =>
      cases hf
      have hmap := hg.map Slot.zero.add (k := 1) (l := 1) fun hm hs => by
        simpa using hs.zero_add (by omega)
      simpa using hmap.mono (Nat.le_add_left _ b)
  | case2 s p =>
      cases hg
      simpa using hf.mono (Nat.le_add_right b c)
  | case3 d s p e t q hlt ih =>
      obtain _ | ⟨hs, hp, hb⟩ := hf
      rw [add_assoc]
      exact .cons hs (ih hp hg (by omega)) (by omega)
  | case4 d s p e t q hle hlt ih =>
      obtain _ | ⟨ht, hq, hc⟩ := hg
      rw [add_left_comm]
      exact .cons (ht.zero_add (by omega)) (ih hf hq (by omega)) (by omega)
  | case5 d s p e t q hle hge ih =>
      obtain _ | ⟨hs, hp, hb⟩ := hf
      obtain _ | ⟨ht, hq, hc⟩ := hg
      obtain rfl : d = e := by omega
      rw [add_add_add_comm, ← map_add]
      exact .cons (hs.add ht (by omega)) (ih hp hq (by omega)) (by omega)

/-- With a unit for sign an expansion denotes the multiple. -/
theorem Denotes.withSign {sign : Float} {k : ℤ} (h : Denotes p f b) (hb : b < 2 ^ 53)
    (hsign : Exactly sign k) (hk : k.natAbs = 1) :
    Denotes (Expansion.withSign sign p) (C k * f) b := by
  have hmap := h.map (fun s => ⟨sign * s.value, s.magnitude⟩) (k := k) (l := 1)
    fun {s a m} hm hs => by
      have hle : (k * a).natAbs ≤ m := by rw [Int.natAbs_mul, hk, one_mul]; exact hs.natAbs_le
      exact ⟨hsign.mul_int hs.value (by omega), by simpa using hs.magnitude, by simpa using hle⟩
  rwa [one_mul] at hmap

/-- A unit multiple denotes the multiple. -/
theorem Denotes.scale {unit : Float} {k : ℤ} (h : Denotes p f b) (hb : b < 2 ^ 53)
    (hunit : Exactly unit k) (hk : k.natAbs = 1) :
    Denotes (p.scale unit) (C k * f) b := by
  have habs : Exactly (Scalar.abs unit) (1 : ℕ) := by
    have h1 : |(k : ℚ)| = (1 : ℕ) := by exact_mod_cast (Int.abs_eq_natAbs k).trans (by simp [hk])
    exact h1 ▸ hunit.abs
  have hmap := h.map (fun s => ⟨s.value * unit, s.magnitude * Scalar.abs unit⟩) (k := k) (l := 1)
    fun {s a m} hm hs => by
      have hle : (k * a).natAbs ≤ m := by rw [Int.natAbs_mul, hk, one_mul]; exact hs.natAbs_le
      have hvalue := hs.value.mul_int hunit (by rw [mul_comm]; omega)
      have hmagnitude := hs.magnitude.mul_nat habs (by omega)
      rw [mul_comm] at hvalue
      rw [mul_comm] at hmagnitude
      exact ⟨hvalue, hmagnitude, by simpa using hle⟩
  rwa [one_mul] at hmap

/-- Leaving out what has cancelled leaves the polynomial. -/
theorem Denotes.live (h : Denotes p f b) (hb : b < 2 ^ 49) : Denotes p.live f b := by
  induction h with
  | nil c => exact .nil c
  | @cons d m b c a s p f hs hp hc ih =>
      have hlive := hs.isLive_iff (by omega)
      unfold Expansion.live
      by_cases ha : a = 0
      · rw [List.filter_cons_of_neg (by simpa [hlive] using ha), ha, map_zero, zero_add]
        exact (ih (by omega)).mono (by omega)
      · rw [List.filter_cons_of_pos (by simpa [hlive] using ha)]
        exact .cons hs (ih (by omega)) hc

/-- A row is one term times the other factor. -/
theorem Denotes.row {s : Slot Float} {a : ℤ} {m : ℕ} (d : ℕ) (hs : s.Exact a m)
    (h : Denotes q g c) (hc : c < 2 ^ 49) (hmc : m * c < 2 ^ 53) :
    Denotes (Expansion.row d s q) (monomial d a * g) (m * c) := by
  have hrow : ∀ {q g c}, Denotes q g c → m * c < 2 ^ 53 →
      Denotes (q.map fun (e, t) => (d + e, s.mul t)) (monomial d a * g) (m * c) := by
    intro q g c h hmc
    induction h with
    | nil c => simpa using Denotes.nil (m * c)
    | @cons e n b c a' t q g ht hq hc ih =>
        have hsum : m * n + m * b ≤ m * c := by
          rw [← mul_add]
          exact Nat.mul_le_mul_left m hc
        rw [mul_add, monomial_mul_monomial]
        exact .cons (hs.mul ht (by omega)) (ih (by omega)) hsum
  exact hrow (h.live hc) hmc

/-- Summing rows multiplies. -/
theorem Denotes.foldl_rows {sums : Expansion Float} {h : ℤ[X]} {e : ℕ}
    (hf : Denotes p f b) (hg : Denotes q g c) (hh : Denotes sums h e) (hc : c < 2 ^ 49)
    (hebc : e + b * c < 2 ^ 53) :
    Denotes (p.foldl (fun sums (d, s) => Expansion.merge sums (Expansion.row d s q)) sums)
      (h + f * g) (e + b * c) := by
  induction hf generalizing sums h e with
  | nil b => simpa using hh.mono (Nat.le_add_right e _)
  | @cons d m b b' a s p f hs hp hb ih =>
      have hmass : m * c + b * c ≤ b' * c := by
        rw [← add_mul]
        exact Nat.mul_le_mul_right c hb
      have hmerge := hh.merge (hg.row d hs hc (by omega)) (by omega)
      rw [add_mul, ← add_assoc]
      exact (ih hmerge (by omega)).mono (by omega)

end Expansion

end Univariate
