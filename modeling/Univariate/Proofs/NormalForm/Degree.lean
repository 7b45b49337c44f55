import Univariate.Proofs.Expansion.Growth

/-!
# The degree of an expression that only grows

Nothing cancels in sums, products and powers of the variable and of numbers
that are at least one, so such an expression should have the degree that it
is written with.  It does as long as its leading coefficient stays finite.
An overflowed coefficient is taken for a cancelled one and left out, which
lowers the degree, or makes zero out of a huge constant: no normal form of
such an expression holds an infinite coefficient.

* `Expr.Growing` — the expressions;
* `Expr.formalDegree`, `Expr.formalLeading` — the degree that is written,
  and the leading coefficient in rounded arithmetic;
* `Expr.leads_expand` — what expansion makes of them, node by node;
* `Expr.normalize_degree_iff` — the degree and the leading coefficient come
  out exactly if the latter is finite.
-/

namespace Univariate

open Binary64 Expansion

namespace Expr

/-- Sums, products and powers of the variable and of finite numbers that
are at least one. -/
def Growing : Expr Float → Prop
  | const c => c.isFinite = true ∧ 1 ≤ c
  | var => True
  | add l r | mul l r => l.Growing ∧ r.Growing
  | pow base _ => base.Growing
  | sub _ _ | div _ _ | neg _ => False

/-- The degree that the tree is written with, by the degrees of its
parts. -/
def formalDegree {α : Type} : Expr α → ℕ
  | const _ => 0
  | var => 1
  | add l r | sub l r => max l.formalDegree r.formalDegree
  | mul l r => l.formalDegree + r.formalDegree
  | div l _ => l.formalDegree
  | pow base n => base.formalDegree * n
  | neg inner => inner.formalDegree

/-- The leading coefficient of a growing tree, in rounded arithmetic. -/
def formalLeading : Expr Float → Float
  | const c => c
  | var => Scalar.one
  | add l r =>
    if l.formalDegree < r.formalDegree then r.formalLeading
    else if r.formalDegree < l.formalDegree then l.formalLeading
    else l.formalLeading + r.formalLeading
  | mul l r => l.formalLeading * r.formalLeading
  | pow base n => Scalar.powLoop Scalar.one base.formalLeading n
  | sub _ _ | div _ _ | neg _ => Scalar.zero

/-- **What a growing tree expands to has the leading coefficient of the
tree, while that is finite.** -/
theorem leads_expand {e : Expr Float} (he : e.Growing) {limit : ℕ} {r : Expansion Float}
    (h : e.expand limit = .ok r) : Leads r e.formalDegree e.formalLeading := by
  rw [expand_eq_ok_iff] at h
  induction h with
  | const c =>
      obtain ⟨hfinite, hone⟩ := he
      obtain ⟨q, hq⟩ := (isFinite_iff c).mp hfinite
      exact .single 0 hq ((exactly_scalar_one.le_iff hq).mp hone)
  | var => exact .single 1 exactly_scalar_one le_rfl
  | add hl hr ihl ihr => exact (ihl he.1).add (ihr he.2)
  | mul hl hr h ihl ihr => exact (ihl he.1).mul (ihr he.2) h
  | pow hbase h ih => exact (ih he).pow h
  | sub hl hr | div hl hr | neg hinner => exact he.elim

/-- **The degree and the leading coefficient of a growing tree come out
exactly if that coefficient does not overflow.**  Coefficients that do
overflow are never part of the normal form. -/
theorem normalize_degree_iff {e : Expr Float} (he : e.Growing) {limit : ℕ}
    {p : NormalForm Float} (h : e.normalize limit = .ok p) :
    (e.formalLeading.isFinite = true ↔
      p.degree? = some e.formalDegree ∧ p.leading = e.formalLeading) ∧
    ∀ t ∈ p.terms, t.2.isFinite = true := by
  obtain ⟨r, hr, h⟩ := bind_eq_ok h
  obtain rfl : r.toNormalForm = p := Except.ok.inj h
  have hleads := leads_expand he hr
  have hfinite : ∀ t ∈ r.toNormalForm.terms, t.2.isFinite = true := by
    intro t ht
    obtain ⟨s, hs, rfl⟩ := List.mem_map.mp ht
    obtain ⟨hmem, hlive⟩ := List.mem_filter.mp (List.mem_reverse.mp hs)
    exact (hleads.under s hmem).1.isLive_iff.mp hlive
  refine ⟨⟨fun hlead => ?_, fun hlead => ?_⟩, hfinite⟩
  · obtain ⟨init, s, hsplit, hvalue, -, -⟩ := hleads.live_eq hlead
    have hterms : r.toNormalForm.terms = (e.formalDegree, e.formalLeading) ::
        init.reverse.map fun t => (t.1, t.2.value) := by
      rw [toNormalForm, hsplit, List.reverse_append, ← hvalue]
      rfl
    rw [NormalForm.degree?, NormalForm.leading, hterms]
    exact ⟨rfl, rfl⟩
  · obtain ⟨hdegree, hleading⟩ := hlead
    rw [← hleading]
    cases hterms : r.toNormalForm.terms with
    | nil =>
        rw [NormalForm.degree?, hterms] at hdegree
        cases hdegree
    | cons t rest =>
        rw [NormalForm.leading, hterms]
        exact hfinite t (hterms ▸ List.mem_cons_self)

/-- `x³ + 2` has degree three, and the leading coefficient one. -/
theorem normalize_degree_cube :
    let e : Expr Float := add (pow var 3) (const 2)
    e.Growing ∧ ∃ p, e.normalize 64 = .ok p ∧ e.formalLeading.isFinite = true ∧
      p.degree? = some 3 ∧ p.leading = Scalar.one := by
  intro e
  have htwo : (2 : Float).isFinite = true ∧ 1 ≤ (2 : Float) := by decide
  have he : e.Growing := ⟨trivial, htwo⟩
  have hlead : e.formalLeading = Scalar.one := by
    have hone : (Scalar.one * Scalar.one : Float) = Scalar.one := large_one.one_mul_eq
    simp [e, formalLeading, formalDegree, Scalar.powLoop, hone]
  have hfinite : e.formalLeading.isFinite = true := by
    rw [hlead]
    rfl
  obtain ⟨r, hr, -⟩ := (monomial_single 1).pow (by norm_num : 1 * 3 ≤ 64)
  have hpow : (pow var 3 : Expr Float).expand 64 = .ok r := hr
  have hnormalize : e.normalize 64 =
      .ok (addSigned r (Expansion.single 0 2) Scalar.one).toNormalForm := by
    rw [normalize, expand, hpow]
    rfl
  obtain ⟨hdegree, hleading⟩ := (normalize_degree_iff he hnormalize).1.mp hfinite
  exact ⟨he, _, hnormalize, hfinite, hdegree, hleading.trans hlead⟩

/-- The huge constant `1e200·1e200` is normalized to zero. -/
theorem normalize_overflow :
    let e : Expr Float := mul (const (Float.ofScientific 1 false 200))
      (const (Float.ofScientific 1 false 200))
    e.Growing ∧ e.formalDegree = 0 ∧ e.normalize defaultMaxDegree = .ok .zero := by
  have hconst : (Float.ofScientific 1 false 200).isFinite = true ∧
      1 ≤ Float.ofScientific 1 false 200 := by decide +kernel
  have hlive : (Slot.single (Float.ofScientific 1 false 200)).isLive = true := by decide +kernel
  have hdead : (Slot.zero.add ((Slot.single (Float.ofScientific 1 false 200)).mul
      (Slot.single (Float.ofScientific 1 false 200)))).isLive = false := by decide +kernel
  generalize Float.ofScientific 1 false 200 = c at hconst hlive hdead
  have hproduct : (mul (const c) (const c)).expand defaultMaxDegree =
      .ok [(0 + 0, Slot.zero.add ((Slot.single c).mul (Slot.single c)))] :=
    mul_singleton hlive hlive (Nat.zero_le _)
  refine ⟨⟨hconst, hconst⟩, rfl, ?_⟩
  rw [normalize, hproduct]
  show Except.ok (toNormalForm _) = _
  simp [toNormalForm, live, hdead, NormalForm.zero]

end Expr

end Univariate
