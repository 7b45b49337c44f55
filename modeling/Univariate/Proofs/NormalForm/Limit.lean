import Univariate.Proofs.Expansion.Bounds
import Univariate.Proofs.Expansion.Monomials

/-!
# The limit on the degree

The limit is compared where a degree can rise, at products and powers.
Every slot that comes out of one is within the limit, and sums, signs and
quotients bring no new degrees.  What is never compared is a variable that
stands outside of all products and powers: its degree is one, so a limit of
zero lets it pass.

* `Expr.exposesVariable` — the variable occurs where nothing compares its
  degree;
* `Expr.upTo_degreeBound` — the degrees in an expansion;
* `Expr.normalize_degree_le` — the degrees of the terms.
-/

namespace Univariate

open Expansion

variable {α : Type}

namespace Expr

/-- The variable occurs outside of products, powers and divisors. -/
def exposesVariable : Expr α → Bool
  | const _ => false
  | var => true
  | add l r | sub l r => l.exposesVariable || r.exposesVariable
  | mul _ _ | pow _ _ => false
  | div l _ => l.exposesVariable
  | neg inner => inner.exposesVariable

/-- The highest degree that passes a limit. -/
def degreeBound (limit : ℕ) (e : Expr α) : ℕ := if e.exposesVariable then max limit 1 else limit

variable {e l r : Expr α} {limit : ℕ}

theorem limit_le_degreeBound (limit : ℕ) (e : Expr α) : limit ≤ e.degreeBound limit := by
  unfold degreeBound
  split_ifs
  · exact le_max_left limit 1
  · exact le_rfl

/-- The bound is the limit, or one if the limit is zero. -/
theorem degreeBound_le (limit : ℕ) (e : Expr α) : e.degreeBound limit ≤ max limit 1 := by
  unfold degreeBound
  split_ifs
  · exact le_rfl
  · exact le_max_left limit 1

/-- The bound is the limit if that is not zero, or if no variable is exposed. -/
theorem degreeBound_eq (h : 1 ≤ limit ∨ e.exposesVariable = false) :
    e.degreeBound limit = limit := by
  unfold degreeBound
  rcases h with h | h
  · rw [max_eq_left h, ite_self]
  · rw [h]
    rfl

/-- A tree exposes what its parts expose. -/
theorem degreeBound_mono (h : l.exposesVariable = true → e.exposesVariable = true) :
    l.degreeBound limit ≤ e.degreeBound limit := by
  cases hl : l.exposesVariable with
  | true =>
      rw [degreeBound, degreeBound, hl, h hl]
  | false =>
      rw [degreeBound_eq (Or.inr hl)]
      exact limit_le_degreeBound limit e

variable [Scalar α]

/-- **No slot lies above the limit**, but for that of a variable whose
degree is never compared. -/
theorem upTo_degreeBound {p : Expansion α} (h : e.expand limit = .ok p) :
    UpTo (e.degreeBound limit) p := by
  rw [expand_eq_ok_iff] at h
  induction h with
  | const c => exact (upTo_single 0 c).mono (Nat.zero_le _)
  | var => exact (upTo_single 1 _).mono (le_max_right limit 1)
  | add hl hr ihl ihr | sub hl hr ihl ihr =>
      refine (ihl.mono (degreeBound_mono ?_)).addSigned (ihr.mono (degreeBound_mono ?_)) _ <;>
        simp +contextual [exposesVariable]
  | mul hl hr h ihl ihr =>
      exact upTo_limit_mul (ascending_expand (expand_eq_ok_iff.mpr hl))
        (ascending_expand (expand_eq_ok_iff.mpr hr)) h
  | div hl hr hvariable hzero ihl ihr => exact ihl.scale _
  | pow hbase h ih => exact upTo_limit_pow (ascending_expand (expand_eq_ok_iff.mpr hbase)) h
  | neg hinner ih => exact ih.scale _

/-- **The terms respect the limit** if it is at least one, or if every
occurrence of the variable is in a product, a power or a divisor.  A limit
of zero lets the degree one pass, and no other. -/
theorem normalize_degree_le {p : NormalForm α} (h : e.normalize limit = .ok p) :
    (1 ≤ limit ∨ e.exposesVariable = false → ∀ t ∈ p.terms, t.1 ≤ limit) ∧
      ∀ t ∈ p.terms, t.1 ≤ max limit 1 := by
  obtain ⟨slots, hslots, h⟩ := bind_eq_ok h
  obtain rfl := Except.ok.inj h
  have hbound : ∀ t ∈ slots.toNormalForm.terms, t.1 ≤ e.degreeBound limit := by
    intro t ht
    obtain ⟨s, hs, rfl⟩ := List.mem_map.mp ht
    exact (upTo_degreeBound hslots).live s (List.mem_reverse.mp hs)
  constructor
  · intro hlimit t ht
    exact (hbound t ht).trans (degreeBound_eq hlimit).le
  · intro t ht
    exact (hbound t ht).trans (degreeBound_le limit e)

/-- `x³ + 2` within a limit of three. -/
theorem normalize_degree_le_cube :
    ∃ p, (add (pow var 3) (const 2) : Expr Float).normalize 3 = .ok p ∧
      ∀ t ∈ p.terms, t.1 ≤ 3 := by
  obtain ⟨r, hr, -⟩ := (monomial_single 1).pow (by norm_num : 1 * 3 ≤ 3)
  have hpow : (pow var 3 : Expr Float).expand 3 = .ok r := hr
  have hnormalize : (add (pow var 3) (const 2) : Expr Float).normalize 3 =
      .ok (addSigned r (Expansion.single 0 2) Scalar.one).toNormalForm := by
    rw [normalize, expand, hpow]
    rfl
  exact ⟨_, hnormalize, (normalize_degree_le hnormalize).1 (Or.inl (by norm_num))⟩

/-- The variable itself is accepted within a limit of zero. -/
theorem normalize_variable_zero_limit :
    ∃ p, (var : Expr Float).normalize 0 = .ok p ∧ ∃ t ∈ p.terms, ¬t.1 ≤ 0 := by
  have hlive : (Slot.single (Scalar.one : Float)).isLive = true := by decide +kernel
  have hterms : toNormalForm (Expansion.single 1 (Scalar.one : Float)) = ⟨[(1, Scalar.one)]⟩ := by
    simp [toNormalForm, live, Expansion.single, hlive]
    rfl
  refine ⟨_, rfl, (1, Scalar.one), ?_, by norm_num⟩
  rw [hterms]
  exact List.mem_singleton_self _

end Expr

end Univariate
