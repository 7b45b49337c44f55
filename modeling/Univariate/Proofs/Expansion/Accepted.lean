import Univariate.NormalForm.Expansion
import Univariate.Proofs.Computation
import Univariate.Proofs.Powers

/-!
# Accepted expansions

An expansion that is accepted comes out of one accepted operation after the
other.  Here is what each of them has compared and what it answers, and the
whole of a tree as a relation with one rule for every node.  An invariant of
expansions then takes one lemma for every operation and one case for every
rule, and neither of them speaks of refusals.

* `Expansion.mul_eq_ok_iff`, `Expansion.div_eq_ok_iff`,
  `Expansion.pow_eq_ok_iff` — the operations;
* `Expansion.mul_induction`, `Expansion.pow_induction` — what adding rows
  keeps, products keep, and what products keep, powers keep;
* `Expr.ExpandsTo`, `Expr.expand_eq_ok_iff` — the trees.
-/

namespace Univariate

namespace Expansion

variable {α : Type} [Scalar α] {limit n : ℕ} {p q r : Expansion α}

/-! ## Products and quotients -/

/-- **A product is accepted** if the degrees add up to no more than the limit,
and is then the sum of its rows. -/
theorem mul_eq_ok_iff : mul limit p q = .ok r ↔
    p.topDegree + q.topDegree ≤ limit ∧
      p.live.foldl (fun sums (d, s) => merge sums (row d s q)) [] = r := by
  unfold mul
  dsimp only
  split_ifs with hover
  · exact iff_of_false nofun fun h => absurd h.1 (not_le.mpr hover)
  · rw [Except.ok.injEq, and_iff_right (not_lt.mp hover)]

/-- **What holds of nothing and is kept by adding rows** holds of a
product. -/
theorem mul_induction {P : Expansion α → Prop} (h : mul limit p q = .ok r) (hnil : P [])
    (hrow : ∀ s ∈ p.live, ∀ sums, P sums → P (merge sums (row s.1 s.2 q))) : P r := by
  obtain ⟨-, rfl⟩ := mul_eq_ok_iff.mp h
  exact List.foldlRecOn _ _ hnil fun sums hsums s hs => hrow s hs sums hsums

/-- **A quotient is accepted** if the divisor is a constant other than zero,
and is then a multiple. -/
theorem div_eq_ok_iff : div p q = .ok r ↔
    q.topDegree = 0 ∧ Scalar.eq q.constantTerm Scalar.zero = false ∧
      p.scale (Scalar.one / q.constantTerm) = r := by
  unfold div
  dsimp only
  split_ifs with hvariable hzero
  · exact iff_of_false nofun fun h => hvariable.ne' h.1
  · refine iff_of_false nofun fun h => ?_
    rw [hzero] at h
    cases h.2.1
  · rw [Except.ok.injEq, and_iff_right (Nat.eq_zero_of_not_pos hvariable),
      and_iff_right (Bool.eq_false_iff.mpr hzero)]

/-! ## Powers -/

/-- One round of square and multiply: the lowest bit, then all others. -/
theorem powLoop_eq (hn : n ≠ 0) (result square : Expansion α) :
    powLoop limit result square n =
      (if n % 2 = 1 then mul limit result square else .ok result) >>= fun result =>
        if n / 2 = 0 then .ok result
        else mul limit square square >>= fun square => powLoop limit result square (n / 2) := by
  rw [powLoop, if_neg hn]
  by_cases hodd : n % 2 = 1
  · simp only [if_pos hodd]
    rfl
  · simp only [if_neg hodd]
    rfl

/-- **Square and multiply** keeps what products with the square keep, if
squaring keeps what they need of it. -/
theorem powLoop_induction {P Q : Expansion α → Prop} {result square : Expansion α}
    (hmul : ∀ p q r, P p → Q q → mul limit p q = .ok r → P r)
    (hsquares : ∀ p r, Q p → mul limit p p = .ok r → Q r) (hresult : P result)
    (hsquare : Q square) (h : powLoop limit result square n = .ok r) : P r := by
  induction n using Nat.strong_induction_on generalizing result square with
  | _ n ih =>
      by_cases hzero : n = 0
      · rw [powLoop, if_pos hzero] at h
        exact Except.ok.inj h ▸ hresult
      rw [powLoop_eq hzero] at h
      obtain ⟨product, hproduct, h⟩ := bind_eq_ok h
      have hproduct : P product := by
        split_ifs at hproduct
        · exact hmul _ _ _ hresult hsquare hproduct
        · exact Except.ok.inj hproduct ▸ hresult
      split_ifs at h
      · exact Except.ok.inj h ▸ hproduct
      · obtain ⟨next, hnext, h⟩ := bind_eq_ok h
        exact ih (n / 2) (by omega) hproduct (hsquares _ _ hsquare hnext) h

/-- **A power is accepted** if the degree times the exponent is no more than
the limit and all products on the way are accepted. -/
theorem pow_eq_ok_iff : pow limit p n = .ok r ↔
    p.topDegree * n ≤ limit ∧ powLoop limit (single 0 Scalar.one) p n = .ok r := by
  unfold pow
  dsimp only
  split_ifs with hover
  · exact iff_of_false nofun fun h => absurd h.1 (not_le.mpr hover)
  · rw [and_iff_right (not_lt.mp hover)]

/-- **What holds of one and is kept by products** holds of a power. -/
theorem pow_induction {P Q : Expansion α → Prop} (h : pow limit p n = .ok r)
    (hone : P (single 0 Scalar.one)) (hp : Q p)
    (hmul : ∀ p q r, P p → Q q → mul limit p q = .ok r → P r)
    (hsquares : ∀ p r, Q p → mul limit p p = .ok r → Q r) : P r :=
  powLoop_induction hmul hsquares hone hp (pow_eq_ok_iff.mp h).2

end Expansion

/-! ## Trees -/

namespace Expr

variable {α : Type} [Scalar α]

/-- The tree is expanded, node by node. -/
inductive ExpandsTo (limit : ℕ) : Expr α → Expansion α → Prop
  | const (c : α) : ExpandsTo limit (const c) (.single 0 c)
  | var : ExpandsTo limit var (.single 1 Scalar.one)
  | add {l r : Expr α} {p q : Expansion α} (hl : ExpandsTo limit l p) (hr : ExpandsTo limit r q) :
      ExpandsTo limit (add l r) (p.addSigned q Scalar.one)
  | sub {l r : Expr α} {p q : Expansion α} (hl : ExpandsTo limit l p) (hr : ExpandsTo limit r q) :
      ExpandsTo limit (sub l r) (p.addSigned q (-Scalar.one))
  | mul {l r : Expr α} {p q product : Expansion α} (hl : ExpandsTo limit l p)
      (hr : ExpandsTo limit r q) (h : Expansion.mul limit p q = .ok product) :
      ExpandsTo limit (mul l r) product
  | div {l r : Expr α} {p q : Expansion α} (hl : ExpandsTo limit l p) (hr : ExpandsTo limit r q)
      (hvariable : q.topDegree = 0) (hzero : Scalar.eq q.constantTerm Scalar.zero = false) :
      ExpandsTo limit (div l r) (p.scale (Scalar.one / q.constantTerm))
  | pow {base : Expr α} {n : ℕ} {p power : Expansion α} (hbase : ExpandsTo limit base p)
      (h : Expansion.pow limit p n = .ok power) : ExpandsTo limit (pow base n) power
  | neg {inner : Expr α} {p : Expansion α} (hinner : ExpandsTo limit inner p) :
      ExpandsTo limit (neg inner) (p.scale (-Scalar.one))

variable {limit : ℕ} {e : Expr α} {p : Expansion α}

/-- What a tree is expanded to, it expands to by the rules. -/
theorem ExpandsTo.of_expand (h : e.expand limit = .ok p) : ExpandsTo limit e p := by
  induction e generalizing p with
  | const c =>
      cases h
      exact .const c
  | var =>
      cases h
      exact .var
  | add l r ihl ihr =>
      obtain ⟨p, hp, h⟩ := bind_eq_ok h
      obtain ⟨q, hq, h⟩ := bind_eq_ok h
      cases h
      exact .add (ihl hp) (ihr hq)
  | sub l r ihl ihr =>
      obtain ⟨p, hp, h⟩ := bind_eq_ok h
      obtain ⟨q, hq, h⟩ := bind_eq_ok h
      cases h
      exact .sub (ihl hp) (ihr hq)
  | mul l r ihl ihr =>
      obtain ⟨p, hp, h⟩ := bind_eq_ok h
      obtain ⟨q, hq, h⟩ := bind_eq_ok h
      exact .mul (ihl hp) (ihr hq) h
  | div l r ihl ihr =>
      obtain ⟨p, hp, h⟩ := bind_eq_ok h
      obtain ⟨q, hq, h⟩ := bind_eq_ok h
      obtain ⟨hvariable, hzero, rfl⟩ := Expansion.div_eq_ok_iff.mp h
      exact .div (ihl hp) (ihr hq) hvariable hzero
  | pow base n ih =>
      obtain ⟨p, hp, h⟩ := bind_eq_ok h
      exact .pow (ih hp) h
  | neg inner ih =>
      obtain ⟨p, hp, h⟩ := bind_eq_ok h
      cases h
      exact .neg (ih hp)

/-- **A tree is accepted with the expansion that its nodes add up to**, and
with no other. -/
theorem expand_eq_ok_iff : e.expand limit = .ok p ↔ ExpandsTo limit e p := by
  refine ⟨ExpandsTo.of_expand, fun h => ?_⟩
  induction h with
  | const c => rfl
  | var => rfl
  | add hl hr ihl ihr | sub hl hr ihl ihr =>
      rw [expand, ihl, ihr]
      rfl
  | mul hl hr h ihl ihr =>
      rw [expand, ihl, ihr]
      exact h
  | div hl hr hvariable hzero ihl ihr =>
      rw [expand, ihl, ihr]
      exact Expansion.div_eq_ok_iff.mpr ⟨hvariable, hzero, rfl⟩
  | pow hbase h ih =>
      rw [expand, ih]
      exact h
  | neg hinner ih =>
      rw [expand, ih]
      rfl

end Expr

end Univariate
