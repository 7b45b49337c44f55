import Univariate.Proofs.NormalForm.Integral

/-!
# Products of integer expressions

In a product nothing gets lost: no factor has a higher degree than the
product, and none has a greater magnitude, as long as all of them are at
least one.  So of a tree that multiplies, the tree itself is all that has to
be compared with a bound on magnitudes or with a limit on degrees.

* `Expr.Denotes` — an integer tree whose subtrees are no larger than itself,
  with its polynomial and its magnitude;
* `Denotes.mul`, `Denotes.pow`, `Denotes.neg`, `denotes_sub`, `denotes_add`
  — how such trees are put together;
* `Denotes.normalize` — the normal form of such a tree.
-/

namespace Univariate

open Binary64 Polynomial

namespace Expr

/-- The tree denotes a polynomial that is not zero, of a magnitude and a
degree that none of its subtrees exceeds. -/
structure Denotes (e : Expr Float) (f : ℤ[X]) (b : ℕ) : Prop where
  integral : e.Integral
  toPolynomial_eq : e.toPolynomial = f
  ne_zero : f ≠ 0
  magnitude_eq : e.magnitude = b
  pos : 0 < b
  le : ∀ s ∈ e.subtrees, s.magnitude ≤ b
  within : ∀ limit, f.natDegree ≤ limit → ¬e.Exceeds limit

variable {e l r : Expr Float} {f g : ℤ[X]} {b c n : ℕ} {y : Float} {k : ℤ}

/-! ## Leaves and linear polynomials -/

/-- A constant other than zero. -/
theorem denotes_const (hy : Exactly y k) (hk : k ≠ 0) : (const y).Denotes (C k) k.natAbs := by
  have hint : toInt? y = some k := (toInt?_eq_some_iff y k).mpr hy
  have hmagnitude : (const y).magnitude = k.natAbs := by rw [magnitude, hint, Option.getD_some]
  refine ⟨by rw [Integral, hint]; rfl, by rw [toPolynomial, hint, Option.getD_some],
    C_ne_zero.mpr hk, hmagnitude, Int.natAbs_pos.mpr hk, ?_, ?_⟩
  · intro s hs
    rw [List.mem_singleton.mp hs, hmagnitude]
  · intro limit _
    rw [exceeds_leaf rfl]
    exact id

/-- The variable. -/
theorem denotes_var : (var : Expr Float).Denotes X 1 := by
  refine ⟨trivial, rfl, X_ne_zero, rfl, one_pos, ?_, ?_⟩
  · intro s hs
    rw [List.mem_singleton.mp hs]
    rfl
  · intro limit _
    rw [exceeds_leaf rfl]
    exact id

/-- Neither a sum nor a difference of leaves exceeds any limit. -/
theorem denotes_linear (he : e.subtrees = [e, var, const y]) (hover : ∀ limit, ¬e.OverLimit limit)
    (hintegral : e.Integral) (hy : Exactly y k) (hpolynomial : e.toPolynomial = f) (hf : f ≠ 0)
    (hmagnitude : e.magnitude = 1 + k.natAbs) : e.Denotes f (1 + k.natAbs) := by
  have hint : toInt? y = some k := (toInt?_eq_some_iff y k).mpr hy
  refine ⟨hintegral, hpolynomial, hf, hmagnitude, by omega, ?_, ?_⟩
  · rw [he, List.forall_mem_cons, List.forall_mem_cons, List.forall_mem_singleton, hmagnitude,
      magnitude, magnitude, hint, Option.getD_some]
    exact ⟨le_rfl, Nat.le_add_right _ _, Nat.le_add_left _ _⟩
  · intro limit _
    rw [exceeds_binary (l := var) (r := const y) he, exceeds_leaf rfl, exceeds_leaf rfl]
    exact not_or.mpr ⟨id, not_or.mpr ⟨id, hover limit⟩⟩

/-- The variable less a constant: the linear factor of a root. -/
theorem denotes_sub (hy : Exactly y k) : (sub var (const y)).Denotes (X - C k) (1 + k.natAbs) := by
  have hint : toInt? y = some k := (toInt?_eq_some_iff y k).mpr hy
  refine denotes_linear rfl (fun _ => id) ⟨trivial, ?_⟩ hy ?_ (X_sub_C_ne_zero k) ?_
  · rw [Integral, hint]
    rfl
  · rw [toPolynomial, toPolynomial, toPolynomial, hint, Option.getD_some]
  · rw [magnitude, magnitude, magnitude, hint, Option.getD_some]

/-- The variable plus a constant: the linear factor of a negative root. -/
theorem denotes_add (hy : Exactly y k) : (add var (const y)).Denotes (X + C k) (1 + k.natAbs) := by
  have hint : toInt? y = some k := (toInt?_eq_some_iff y k).mpr hy
  refine denotes_linear rfl (fun _ => id) ⟨trivial, ?_⟩ hy ?_ (X_add_C_ne_zero k) ?_
  · rw [Integral, hint]
    rfl
  · rw [toPolynomial, toPolynomial, toPolynomial, hint, Option.getD_some]
  · rw [magnitude, magnitude, magnitude, hint, Option.getD_some]

/-! ## Signs, products and powers -/

/-- The opposite. -/
theorem Denotes.neg (h : e.Denotes f b) : (neg e).Denotes (-f) b := by
  refine ⟨h.integral, by rw [toPolynomial, h.toPolynomial_eq], neg_ne_zero.mpr h.ne_zero,
    h.magnitude_eq, h.pos, ?_, ?_⟩
  · exact (forall_subtrees_unary (i := e) rfl).mpr ⟨h.magnitude_eq.le, h.le⟩
  · intro limit hlimit
    rw [natDegree_neg] at hlimit
    rw [exceeds_unary (i := e) rfl]
    exact not_or.mpr ⟨h.within limit hlimit, id⟩

/-- A product, whose magnitudes multiply. -/
theorem Denotes.mul (hl : l.Denotes f b) (hr : r.Denotes g c) :
    (mul l r).Denotes (f * g) (b * c) := by
  have hdegree : (f * g).natDegree = f.natDegree + g.natDegree :=
    natDegree_mul hl.ne_zero hr.ne_zero
  have hmagnitude : (Expr.mul l r).magnitude = b * c := by
    rw [magnitude, hl.magnitude_eq, hr.magnitude_eq]
  refine ⟨⟨hl.integral, hr.integral⟩, by rw [toPolynomial, hl.toPolynomial_eq, hr.toPolynomial_eq],
    mul_ne_zero hl.ne_zero hr.ne_zero, hmagnitude, Nat.mul_pos hl.pos hr.pos, ?_, ?_⟩
  · refine (forall_subtrees_binary (l := l) (r := r) rfl).mpr ⟨hmagnitude.le, ?_, ?_⟩
    · exact fun s hs => (hl.le s hs).trans (Nat.le_mul_of_pos_right b hr.pos)
    · exact fun s hs => (hr.le s hs).trans (Nat.le_mul_of_pos_left c hl.pos)
  · intro limit hlimit
    rw [exceeds_binary (l := l) (r := r) rfl, OverLimit, hl.toPolynomial_eq, hr.toPolynomial_eq,
      ← hdegree]
    rw [hdegree] at hlimit
    exact not_or.mpr ⟨hl.within limit (by omega),
      not_or.mpr ⟨hr.within limit (by omega), by omega⟩⟩

/-- A positive power. -/
theorem Denotes.pow (h : e.Denotes f b) (hn : 0 < n) : (pow e n).Denotes (f ^ n) (b ^ n) := by
  have hmagnitude : (Expr.pow e n).magnitude = b ^ n := by rw [magnitude, h.magnitude_eq]
  refine ⟨h.integral, by rw [toPolynomial, h.toPolynomial_eq], pow_ne_zero n h.ne_zero,
    hmagnitude, Nat.pow_pos h.pos, ?_, ?_⟩
  · refine (forall_subtrees_unary (i := e) rfl).mpr ⟨hmagnitude.le, ?_⟩
    exact fun s hs => (h.le s hs).trans (Nat.le_self_pow hn.ne' b)
  · intro limit hlimit
    rw [natDegree_pow] at hlimit
    rw [exceeds_unary (i := e) rfl, OverLimit, h.toPolynomial_eq, mul_comm]
    have hbase : f.natDegree ≤ n * f.natDegree := Nat.le_mul_of_pos_left _ hn
    exact not_or.mpr ⟨h.within limit (hbase.trans hlimit), not_lt.mpr hlimit⟩

/-- **A tree that multiplies has the normal form of its polynomial**, if its
own magnitude and its own degree are not too large. -/
theorem Denotes.normalize (h : e.Denotes f b) (hb : b < 2 ^ 49) {limit : ℕ}
    (hlimit : f.natDegree ≤ limit) : e.normalize limit = .ok (.ofPolynomial f) := by
  have hbounded : e.Bounded := fun s hs => (h.le s hs).trans_lt hb
  rcases normalize_outcome h.integral hbounded limit with ⟨-, hok, -⟩ | ⟨hexceeds, -⟩
  · rw [hok, h.toPolynomial_eq]
  · exact absurd hexceeds (h.within limit hlimit)

end Expr

end Univariate
