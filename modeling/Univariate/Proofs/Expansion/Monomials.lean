import Univariate.Proofs.Binary64.Nearest
import Univariate.Proofs.Expansion.Exact

/-!
# Sums of single terms

An expression that adds up terms of different degrees never adds two
numbers: each degree has one contribution, whose size is also the magnitude
of its slot.  Such a slot is live whenever it is not zero, and products
with a power of the variable and changes of sign only move it.  So nothing
is rounded at any size of the coefficients.

* `Slot.Holds` — one contribution, and `Slot.Holds.isLive_iff`;
* `Expansion.Monomial`, `Expansion.Monomial.pow` — powers of the variable;
* `Expansion.Lists` — terms by ascending degree, zero terms perhaps left
  out, and `Expansion.Lists.toNormalForm_eq`, the others.
-/

namespace Univariate

open Binary64

namespace Slot

/-- The slot holds a single contribution. -/
structure Holds (s : Slot Float) (q : ℚ) : Prop where
  value : Exactly s.value q
  magnitude : Exactly s.magnitude |q|

variable {s t : Slot Float} {q k : ℚ}

/-- **A single contribution counts unless it is zero.**  The threshold is a
fraction of it, even where the fraction is rounded to the finest grid. -/
theorem Holds.isLive_iff (hs : s.Holds q) : s.isLive = true ↔ q ≠ 0 := by
  have hunit : (2 : ℚ) ^ (-49 : ℤ) ≤ 1 := zpow_le_one_of_nonpos₀ one_le_two (by norm_num)
  have hthreshold := exists_share exactly_tolerance (by positivity) hunit hs.magnitude
    (abs_nonneg q)
  rw [Slot.isLive]
  refine (hthreshold.lt_iff hs.value.abs).trans ?_
  constructor
  · intro hlt hq
    rw [hq, abs_zero, mul_zero, rounded_of_nonneg le_rfl, roundMag_zero] at hlt
    exact lt_irrefl _ hlt
  · intro hq
    have hquarter : (2 : ℚ) ^ (-49 : ℤ) ≤ 1 / 4 := by norm_num
    exact rounded_share_lt (by positivity) hquarter hs.magnitude.representable (abs_pos.mpr hq)

/-- A single contribution holds its value. -/
theorem Holds.single {x : Float} (h : Exactly x q) : (Slot.single x).Holds q :=
  ⟨h, h.abs⟩

/-- Adding to nothing leaves the value. -/
theorem Holds.add_zero_left (hs : s.Holds q) : (Slot.zero.add s).Holds q := by
  have hvalue := exactly_scalar_zero.add hs.value
  have hmagnitude := exactly_scalar_zero.add hs.magnitude
  rw [zero_add] at hvalue hmagnitude
  exact ⟨hvalue hs.value.representable, hmagnitude hs.magnitude.representable⟩

/-- Multiplying with one leaves the value. -/
theorem Holds.mul_unit (hs : s.Holds q) (ht : t.Holds 1) : (s.mul t).Holds q := by
  have hvalue := hs.value.mul ht.value
  have hmagnitude := hs.magnitude.mul ht.magnitude
  rw [mul_one] at hvalue
  rw [abs_one, mul_one] at hmagnitude
  exact ⟨hvalue hs.value.representable, hmagnitude hs.magnitude.representable⟩

/-- A factor of magnitude one, with the magnitude left alone. -/
theorem Holds.withSign {sign : Float} (hs : s.Holds q) (hsign : Exactly sign k) (hk : |k| = 1) :
    (⟨sign * s.value, s.magnitude⟩ : Slot Float).Holds (k * q) := by
  have hrep : Representable (k * q) := by
    rcases (abs_eq zero_le_one).mp hk with rfl | rfl
    · rw [one_mul]
      exact hs.value.representable
    · rw [neg_one_mul]
      exact hs.value.neg.representable
  refine ⟨hsign.mul hs.value hrep, ?_⟩
  rw [abs_mul, hk, one_mul]
  exact hs.magnitude

/-- A factor of minus one. -/
theorem Holds.neg (hs : s.Holds q) :
    (⟨s.value * -Scalar.one, s.magnitude * Scalar.abs (-Scalar.one)⟩ : Slot Float).Holds
      (-1 * q) := by
  have hvalue := hs.value.mul exactly_scalar_one.neg
  have hmagnitude := hs.magnitude.mul exactly_scalar_one.neg.abs
  rw [mul_neg_one] at hvalue
  rw [abs_neg, abs_one, mul_one] at hmagnitude
  rw [neg_one_mul]
  refine ⟨hvalue hs.value.neg.representable, ?_⟩
  rw [abs_neg]
  exact hmagnitude hs.magnitude.representable

end Slot

namespace Expansion

variable {p q r : Expansion Float} {limit d e : ℕ}

/-! ## Powers of the variable -/

/-- A power of the variable. -/
def Monomial (d : ℕ) (p : Expansion Float) : Prop := ∃ s, p = [(d, s)] ∧ s.Holds 1

/-- The degree of a single term that counts. -/
theorem topDegree_singleton {s : Slot Float} (h : s.isLive = true) :
    topDegree [(d, s)] = d := by
  simp [topDegree, h]

/-- One live term times another. -/
theorem mul_singleton {s t : Slot Float} (hs : s.isLive = true) (ht : t.isLive = true)
    (hlimit : d + e ≤ limit) :
    mul limit [(d, s)] [(e, t)] = .ok [(d + e, Slot.zero.add (s.mul t))] := by
  rw [mul, topDegree_singleton hs, topDegree_singleton ht]
  simp only [if_neg (not_lt.mpr hlimit), live, row, List.filter_cons_of_pos, hs, ht,
    List.filter_nil, List.foldl_cons, List.foldl_nil, List.map_cons, List.map_nil, merge]

/-- Nothing live gives nothing. -/
theorem mul_of_live_eq_nil (hp : p.live = []) (hq : q.topDegree ≤ limit) :
    mul limit p q = .ok [] := by
  have hfind : p.reverse.find? (·.2.isLive) = none := by
    rw [List.find?_eq_none]
    intro s hs
    exact List.filter_eq_nil_iff.mp hp s (List.mem_reverse.mp hs)
  rw [mul, topDegree, hfind]
  simp only [zero_add, if_neg (not_lt.mpr hq), hp, List.foldl_nil]

/-- A single term with coefficient one is a power of the variable. -/
theorem monomial_single (d : ℕ) : Monomial d (single d Scalar.one) :=
  ⟨_, rfl, .single exactly_scalar_one⟩

/-- **Products of powers of the variable** are powers of it, within the
limit. -/
theorem Monomial.mul (hp : Monomial d p) (hq : Monomial e q) (hlimit : d + e ≤ limit) :
    ∃ r, Expansion.mul limit p q = .ok r ∧ Monomial (d + e) r := by
  obtain ⟨s, rfl, hs⟩ := hp
  obtain ⟨t, rfl, ht⟩ := hq
  exact ⟨_, mul_singleton (hs.isLive_iff.mpr one_ne_zero) (ht.isLive_iff.mpr one_ne_zero) hlimit,
    _, rfl, (hs.mul_unit ht).add_zero_left⟩

/-- **Square and multiply**, on powers of the variable. -/
theorem Monomial.powLoop {result square : Expansion Float} {n : ℕ} (hresult : Monomial d result)
    (hsquare : Monomial e square) (hlimit : d + e * n ≤ limit) :
    ∃ r, Expansion.powLoop limit result square n = .ok r ∧ Monomial (d + e * n) r := by
  induction n using Nat.strong_induction_on generalizing result square d e with
  | _ n ih =>
      by_cases hn : n = 0
      · subst hn
        rw [Expansion.powLoop, if_pos rfl]
        exact ⟨result, rfl, hresult⟩
      rw [← mul_halves e n, ← add_assoc] at hlimit ⊢
      have hlow : d + e * (n % 2) ≤ limit := (Nat.le_add_right _ _).trans hlimit
      -- The lowest bit.
      have hbit : ∃ product,
          (if n % 2 = 1 then Expansion.mul limit result square else .ok result) = .ok product ∧
            Monomial (d + e * (n % 2)) product := by
        rcases Nat.mod_two_eq_zero_or_one n with heven | hodd
        · rw [if_neg (by omega), heven, mul_zero, add_zero]
          exact ⟨result, rfl, hresult⟩
        · rw [hodd, mul_one] at hlow
          rw [if_pos hodd, hodd, mul_one]
          exact hresult.mul hsquare hlow
      obtain ⟨product, hproduct, hmonomial⟩ := hbit
      rw [powLoop_eq hn, hproduct]
      show ∃ r, (if n / 2 = 0 then _ else _) = Except.ok r ∧ _
      by_cases hhalf : n / 2 = 0
      · rw [if_pos hhalf, hhalf, mul_zero, add_zero]
        exact ⟨product, rfl, hmonomial⟩
      -- The bits above it.
      have htwice : e + e ≤ (e + e) * (n / 2) :=
        Nat.le_mul_of_pos_right _ (Nat.pos_of_ne_zero hhalf)
      obtain ⟨next, hnext, hmonomial'⟩ := hsquare.mul hsquare (by omega : e + e ≤ limit)
      rw [if_neg hhalf, hnext]
      exact ih (n / 2) (by omega) hmonomial hmonomial' (by omega)

/-- **A power within the limit is the power.** -/
theorem Monomial.pow {n : ℕ} (hp : Monomial d p) (hlimit : d * n ≤ limit) :
    ∃ r, Expansion.pow limit p n = .ok r ∧ Monomial (d * n) r := by
  obtain ⟨s, rfl, hs⟩ := hp
  have htop : topDegree [(d, s)] = d := topDegree_singleton (hs.isLive_iff.mpr one_ne_zero)
  obtain ⟨r, hr, hmonomial⟩ := (monomial_single 0).powLoop (e := d) ⟨s, rfl, hs⟩
    (by rwa [zero_add] : 0 + d * n ≤ limit)
  rw [zero_add] at hmonomial
  refine ⟨r, pow_eq_ok_iff.mpr ⟨?_, hr⟩, hmonomial⟩
  rwa [htop]

/-! ## Terms by ascending degree -/

/-- The slots hold the terms of a list, one contribution each.  A term that
is zero may have no slot. -/
inductive Lists : Expansion Float → List (ℕ × Float) → Prop
  | nil : Lists [] []
  | slot {d : ℕ} {s : Slot Float} {x : Float} {v : ℚ} {p : Expansion Float}
      {ts : List (ℕ × Float)} (hs : s.Holds v) (hx : Exactly x v) (h : Lists p ts) :
      Lists ((d, s) :: p) ((d, x) :: ts)
  | gap {d : ℕ} {x : Float} {p : Expansion Float} {ts : List (ℕ × Float)} (hx : Exactly x 0)
      (h : Lists p ts) : Lists p ((d, x) :: ts)

variable {x y : Float} {v k : ℚ} {ts : List (ℕ × Float)}

/-- A single term lists itself. -/
theorem Lists.single (d : ℕ) (h : Exactly x v) : Lists (single d x) [(d, x)] :=
  .slot (.single h) h .nil

/-- A power of the variable lists its one term. -/
theorem Monomial.lists (hp : Monomial d p) (hx : Exactly x 1) : Lists p [(d, x)] := by
  obtain ⟨s, rfl, hs⟩ := hp
  exact .slot hs hx .nil

/-- One term, or none if it is zero. -/
theorem Lists.singleton_cases (h : Lists p [(d, x)]) (hx : Exactly x v) :
    (∃ s, p = [(d, s)] ∧ s.Holds v) ∨ (p = [] ∧ v = 0) := by
  cases h with
  | slot hs hx' h =>
      cases h
      exact Or.inl ⟨_, rfl, hx'.unique hx ▸ hs⟩
  | gap hx' h =>
      cases h
      exact Or.inr ⟨rfl, hx.unique hx'⟩

/-- A term changed in its slot. -/
theorem Lists.map {change : Slot Float → Slot Float} (h : Lists p [(d, x)]) (hx : Exactly x v)
    (hchange : ∀ {s : Slot Float}, s.Holds v → (change s).Holds (k * v))
    (hy : Exactly y (k * v)) : Lists (p.map fun (d, s) => (d, change s)) [(d, y)] := by
  rcases h.singleton_cases hx with ⟨s, rfl, hs⟩ | ⟨rfl, rfl⟩
  · exact .slot (hchange hs) hy .nil
  · rw [mul_zero] at hy
    exact .gap hy .nil

/-- A term times a power of the variable. -/
theorem Lists.mul (hp : Lists p [(d, x)]) (hx : Exactly x v) (hq : Monomial e q)
    (hlimit : d + e ≤ limit) :
    ∃ r, Expansion.mul limit p q = .ok r ∧ Lists r [(d + e, x)] := by
  obtain ⟨t, rfl, ht⟩ := hq
  have hlive : t.isLive = true := ht.isLive_iff.mpr one_ne_zero
  have htop : topDegree [(e, t)] ≤ limit := by
    rw [topDegree_singleton hlive]
    omega
  rcases hp.singleton_cases hx with ⟨s, rfl, hs⟩ | ⟨rfl, rfl⟩
  · by_cases hv : v = 0
    · subst hv
      have hdead : ¬s.isLive = true := fun hlive => hs.isLive_iff.mp hlive rfl
      have hdead : live [(d, s)] = [] := List.filter_cons_of_neg (a := (d, s)) hdead
      exact ⟨[], mul_of_live_eq_nil hdead htop, .gap hx .nil⟩
    · exact ⟨_, mul_singleton (hs.isLive_iff.mpr hv) hlive hlimit,
        .slot (hs.mul_unit ht).add_zero_left hx .nil⟩
  · exact ⟨[], mul_of_live_eq_nil rfl htop, .gap hx .nil⟩

/-- An expansion begins where its terms begin. -/
theorem Lists.above (h : Lists p ts) (hts : ∀ t ∈ ts, d < t.1) : Above d p := by
  induction h with
  | nil => exact fun s hs => by cases hs
  | slot hs hx h ih =>
      rw [List.forall_mem_cons] at hts
      exact (above_cons _ _ _).mpr ⟨hts.1, ih hts.2⟩
  | gap hx h ih => exact ih fun t ht => hts t (List.mem_cons_of_mem _ ht)

/-- **A term of lower degree than all others comes first.** -/
theorem Lists.merge (hp : Lists p ts) (hts : ∀ t ∈ ts, d < t.1) (hq : Lists q [(d, x)])
    (hx : Exactly x v) : Lists (Expansion.merge p q) ((d, x) :: ts) := by
  have habove := hp.above hts
  rcases hq.singleton_cases hx with ⟨s, rfl, hs⟩ | ⟨rfl, rfl⟩
  · have hmerge : Expansion.merge p [(d, s)] = (d, Slot.zero.add s) :: p := by
      cases p with
      | nil => simp [Expansion.merge]
      | cons first p =>
          obtain ⟨e, t⟩ := first
          have hlt : d < e := ((above_cons _ _ _).mp habove).1
          rw [Expansion.merge, if_neg hlt.not_gt, if_pos hlt, Expansion.merge]
    rw [hmerge]
    exact .slot hs.add_zero_left hx hp
  · have hmerge : Expansion.merge p [] = p := by
      cases p <;> simp [Expansion.merge]
    rw [hmerge]
    exact .gap hx hp

/-- A term of lower degree added or taken off. -/
theorem Lists.addSigned {sign : Float} (hp : Lists p ts) (hts : ∀ t ∈ ts, d < t.1)
    (hq : Lists q [(d, x)]) (hx : Exactly x v) (hsign : Exactly sign k) (hk : |k| = 1)
    (hy : Exactly y (k * v)) : Lists (Expansion.addSigned p q sign) ((d, y) :: ts) :=
  hp.merge hts (hq.map hx (fun hs => hs.withSign hsign hk) hy) hy

/-- **The normal form has the terms that are not zero.** -/
theorem Lists.toNormalForm_eq (h : Lists p ts) : p.toNormalForm = .ofAscending ts := by
  have hlive : p.live.map (fun t => (t.1, t.2.value)) =
      ts.filter fun t => !Scalar.eq t.2 Scalar.zero := by
    induction h with
    | nil => rfl
    | @slot d s x v p ts hs hx h ih =>
        have hzero := hx.eq_zero_iff
        unfold live at ih ⊢
        by_cases hv : v = 0
        · have hdead : ¬s.isLive = true := fun hlive => hs.isLive_iff.mp hlive hv
          rw [List.filter_cons_of_neg (a := (d, s)) hdead,
            List.filter_cons_of_neg (by simpa using hzero.mpr hv), ih]
        · rw [List.filter_cons_of_pos (a := (d, s)) (hs.isLive_iff.mpr hv),
            List.filter_cons_of_pos (by simpa using mt hzero.mp hv), List.map_cons, ih,
            hs.value.eq_of_ne_zero hx hv]
    | @gap d x p ts hx h ih =>
        have hzero := hx.eq_zero_iff.mpr rfl
        rw [List.filter_cons_of_neg (by simpa using hzero), ih]
  rw [toNormalForm, NormalForm.ofAscending, List.filter_reverse, ← hlive, ← List.map_reverse]

end Expansion

end Univariate
