import Univariate.Proofs.Binary64.Decoding
import Univariate.Proofs.Expansion.Represents
import Univariate.Proofs.Expr.Folding

/-!
# Normal forms of integer expressions

A tree without division whose constants are integers denotes a polynomial
in `ℤ[X]`.  While the magnitude of every subtree stays below `2⁴⁹`, its
normal form is this polynomial, term for term, and the degree limit
refuses exactly the trees in which the true degree of a product or a power
exceeds it.

* `Expr.Integral`, `Expr.toPolynomial`, `Expr.magnitude` — integer trees,
  what they denote, and how much goes into them;
* `Expr.Exceeds` — a product or a power of too high a degree occurs;
* `Expr.expand_outcome` — what expansion answers, node by node;
* `NormalForm.same_ofPolynomial_iff` — equality of normal forms;
* `Expr.normalize_exact` — what normalization answers, and that equality of
  normal forms is equality of polynomials.
-/

namespace Univariate

open Binary64 Polynomial

namespace Expr

/-- There is no division, and every constant is an integer. -/
def Integral : Expr Float → Prop
  | const c => (toInt? c).isSome
  | var => True
  | add l r | sub l r | mul l r => l.Integral ∧ r.Integral
  | div _ _ => False
  | pow base _ => base.Integral
  | neg inner => inner.Integral

/-- The polynomial of a tree.  Constants that are no integers, and
quotients, count as zero. -/
noncomputable def toPolynomial : Expr Float → ℤ[X]
  | const c => C ((toInt? c).getD 0)
  | var => X
  | add l r => l.toPolynomial + r.toPolynomial
  | sub l r => l.toPolynomial - r.toPolynomial
  | mul l r => l.toPolynomial * r.toPolynomial
  | div _ _ => 0
  | pow base n => base.toPolynomial ^ n
  | neg inner => -inner.toPolynomial

/-- The value at one of the tree without its signs: a bound for every
coefficient met while expanding. -/
def magnitude : Expr Float → ℕ
  | const c => ((toInt? c).getD 0).natAbs
  | var => 1
  | add l r | sub l r => l.magnitude + r.magnitude
  | mul l r => l.magnitude * r.magnitude
  | div _ _ => 0
  | pow base n => base.magnitude ^ n
  | neg inner => inner.magnitude

/-- The tree is a product or a power of a degree over the limit. -/
def OverLimit (limit : ℕ) : Expr Float → Prop
  | mul l r => limit < l.toPolynomial.natDegree + r.toPolynomial.natDegree
  | pow base n => limit < base.toPolynomial.natDegree * n
  | _ => False

/-- A product or a power of a degree over the limit occurs. -/
def Exceeds (limit : ℕ) (e : Expr Float) : Prop := ∃ s ∈ e.subtrees, s.OverLimit limit

/-- No subtree has a magnitude of `2⁴⁹` or more. -/
def Bounded (e : Expr Float) : Prop := ∀ s ∈ e.subtrees, s.magnitude < 2 ^ 49

/-! ## Subtrees -/

section Subtrees

variable {limit : ℕ} {e i l r : Expr Float}

theorem exceeds_leaf (h : e.subtrees = [e]) : e.Exceeds limit ↔ e.OverLimit limit := by
  simp [Exceeds, h]

/-- A node with one part is over the limit, or the part is. -/
theorem exceeds_unary (h : e.subtrees = e :: i.subtrees) :
    e.Exceeds limit ↔ i.Exceeds limit ∨ e.OverLimit limit := by
  rw [Exceeds, h, List.exists_mem_cons_iff, or_comm]
  rfl

/-- A node with two parts is over the limit, or one of the parts is. -/
theorem exceeds_binary (h : e.subtrees = e :: (l.subtrees ++ r.subtrees)) :
    e.Exceeds limit ↔ l.Exceeds limit ∨ r.Exceeds limit ∨ e.OverLimit limit := by
  simp only [Exceeds, h, List.exists_mem_cons_iff, List.mem_append, or_and_right, exists_or]
  rw [or_comm, or_assoc]

/-- A bounded tree has a magnitude below `2⁴⁹` itself. -/
theorem Bounded.self (h : e.Bounded) : e.magnitude < 2 ^ 49 := h e e.mem_subtrees_self

theorem Bounded.inner (hb : e.Bounded) (h : e.subtrees = e :: i.subtrees) : i.Bounded :=
  ((forall_subtrees_unary h).mp hb).2

theorem Bounded.left (hb : e.Bounded) (h : e.subtrees = e :: (l.subtrees ++ r.subtrees)) :
    l.Bounded :=
  ((forall_subtrees_binary h).mp hb).2.1

theorem Bounded.right (hb : e.Bounded) (h : e.subtrees = e :: (l.subtrees ++ r.subtrees)) :
    r.Bounded :=
  ((forall_subtrees_binary h).mp hb).2.2

end Subtrees

/-! ## What expansion answers -/

/-- The answer to an expansion: the polynomial, unless the degree of some
node is over the limit, and then the refusal that names a degree. -/
inductive Outcome (limit : ℕ) (f : ℤ[X]) (b : ℕ) :
    Prop → Except Error (Expansion Float) → Prop
  | within {excess : Prop} {p : Expansion Float} (h : ¬excess) (hp : p.Represents f b) :
      Outcome limit f b excess (.ok p)
  | refused {excess : Prop} {degree : ℕ} (h : excess) (hdegree : limit < degree) :
      Outcome limit f b excess (.error (.domain (.degreeOverLimit degree limit)))

variable {limit : ℕ} {f g : ℤ[X]} {b c : ℕ} {here there : Prop}

/-- Two computations in a row: the first refusal is the answer. -/
theorem Outcome.bind {x : Except Error (Expansion Float)}
    {next : Expansion Float → Except Error (Expansion Float)} (hx : Outcome limit f b here x)
    (hnext : ∀ p, p.Represents f b → Outcome limit g c there (next p)) :
    Outcome limit g c (here ∨ there) (x >>= next) := by
  cases hx with
  | refused hover hdegree => exact .refused (Or.inl hover) hdegree
  | @within p hwithin hp =>
      have hanswer := hnext p hp
      show Outcome limit g c (here ∨ there) (next p)
      generalize next p = answer at hanswer
      cases hanswer with
      | within h hq => exact .within (not_or.mpr ⟨hwithin, h⟩) hq
      | refused h hdegree => exact .refused (Or.inr h) hdegree

/-- What cannot be over the limit is accepted. -/
theorem Outcome.pure {p : Expansion Float} (hp : p.Represents f b) :
    Outcome limit f b False (.ok p) :=
  .within id hp

/-- **A product** is refused just if the degrees add up to more than the
limit. -/
theorem Outcome.mul {p q : Expansion Float} (hp : p.Represents f b) (hq : q.Represents g c)
    (hbc : b * c < 2 ^ 49) :
    Outcome limit (f * g) (b * c) (limit < f.natDegree + g.natDegree) (p.mul limit q) := by
  by_cases hover : limit < f.natDegree + g.natDegree
  · rw [hp.mul_over_limit hq hover]
    exact .refused hover hover
  · obtain ⟨r, hr, hrepresents⟩ := hp.mul hq hbc (not_lt.mp hover)
    rw [hr]
    exact .within hover hrepresents

/-- **A power** is refused just if the degree of the result is over the
limit. -/
theorem Outcome.pow {p : Expansion Float} {n : ℕ} (hp : p.Represents f b)
    (hpow : b ^ n < 2 ^ 49) :
    Outcome limit (f ^ n) (b ^ n) (limit < f.natDegree * n) (p.pow limit n) := by
  by_cases hover : limit < f.natDegree * n
  · rw [hp.pow_over_limit hover]
    exact .refused hover hover
  · obtain ⟨r, hr, hrepresents⟩ := hp.pow hpow (not_lt.mp hover)
    rw [hr]
    exact .within hover hrepresents

/-- **Expansion answers with the polynomial of the tree, or refuses because
the degree of a product or a power in it is over the limit.** -/
theorem expand_outcome (limit : ℕ) {e : Expr Float} (hint : e.Integral)
    (hb : e.Bounded) :
    Outcome limit e.toPolynomial e.magnitude (e.Exceeds limit) (e.expand limit) := by
  have hone : Exactly (Scalar.one : Float) (1 : ℤ) := by exact_mod_cast exactly_scalar_one
  have hneg : Exactly (-Scalar.one : Float) (-1 : ℤ) := by
    exact_mod_cast exactly_scalar_one.neg
  induction e with
  | const c =>
      obtain ⟨n, hn⟩ := Option.isSome_iff_exists.mp hint
      have hexact := (toInt?_eq_some_iff c n).mp hn
      have hself := hb.self
      rw [magnitude, hn, Option.getD_some] at hself
      rw [exceeds_leaf rfl, toPolynomial, magnitude, hn, Option.getD_some]
      exact .pure (.single 0 hexact hself)
  | var =>
      rw [exceeds_leaf rfl]
      exact .pure (.single 1 hone (by norm_num))
  | add l r ihl ihr =>
      rw [exceeds_binary (e := add l r) (l := l) (r := r) rfl]
      refine .bind (ihl hint.1 (hb.left rfl)) fun p hp =>
        .bind (ihr hint.2 (hb.right rfl)) fun q hq => .pure ?_
      have hsum := hp.addSigned hq hb.self hone rfl
      rwa [C_1, one_mul] at hsum
  | sub l r ihl ihr =>
      rw [exceeds_binary (e := sub l r) (l := l) (r := r) rfl]
      refine .bind (ihl hint.1 (hb.left rfl)) fun p hp =>
        .bind (ihr hint.2 (hb.right rfl)) fun q hq => .pure ?_
      have hdifference := hp.addSigned hq hb.self hneg rfl
      rwa [C_neg, C_1, neg_one_mul, ← sub_eq_add_neg] at hdifference
  | mul l r ihl ihr =>
      rw [exceeds_binary (e := mul l r) (l := l) (r := r) rfl]
      exact .bind (ihl hint.1 (hb.left rfl)) fun p hp =>
        .bind (ihr hint.2 (hb.right rfl)) fun q hq =>
          .mul hp hq hb.self
  | div l r ihl ihr => exact hint.elim
  | pow base n ih =>
      rw [exceeds_unary (e := pow base n) (i := base) rfl]
      exact .bind (ih hint (hb.inner rfl)) fun p hp =>
        .pow hp hb.self
  | neg inner ih =>
      rw [exceeds_unary (e := neg inner) (i := inner) rfl]
      refine .bind (ih hint (hb.inner rfl)) fun p hp => .pure ?_
      have hopposite := hp.scale hneg rfl
      rwa [C_neg, C_1, neg_one_mul] at hopposite

end Expr

/-! ## Equality of normal forms -/

namespace NormalForm

/-- Two forms are the same if their terms match one by one. -/
theorem same_iff {α : Type} [Scalar α] (p q : NormalForm α) :
    p.same q = true ↔
      List.Forall₂ (fun s t => s.1 = t.1 ∧ Scalar.eq s.2 t.2 = true) p.terms q.terms := by
  simp [same, List.forall₂_iff_zip]

/-- **Normal forms of polynomials are equal when the polynomials are**, as
far as the coefficients are numbers. -/
theorem same_ofPolynomial_iff {f g : ℤ[X]}
    (hf : ∀ d, Exactly (Float.ofInt (f.coeff d)) (f.coeff d))
    (hg : ∀ d, Exactly (Float.ofInt (g.coeff d)) (g.coeff d)) :
    (ofPolynomial f).same (ofPolynomial g) = true ↔ f = g := by
  have hcoeff (d : ℕ) : Scalar.eq (Float.ofInt (f.coeff d)) (Float.ofInt (g.coeff d)) = true ↔
      f.coeff d = g.coeff d := by
    refine ((hf d).beq_iff (hg d)).trans ?_
    norm_cast
  rw [same_iff, ofPolynomial, ofPolynomial, List.forall₂_map_left_iff,
    List.forall₂_map_right_iff]
  constructor
  · intro hterms
    have hdegrees : f.support.sort (· ≥ ·) = g.support.sort (· ≥ ·) :=
      List.forall₂_eq_eq_eq ▸ hterms.imp fun _ _ h => h.1
    have hsupport : f.support = g.support := by
      rw [← Finset.sort_toFinset f.support (· ≥ ·), hdegrees, Finset.sort_toFinset]
    rw [← hdegrees, List.forall₂_same] at hterms
    ext d
    by_cases hd : d ∈ f.support
    · exact (hcoeff d).mp (hterms d ((Finset.mem_sort _).mpr hd)).2
    · rw [notMem_support_iff.mp hd, notMem_support_iff.mp (hsupport ▸ hd)]
  · intro hfg
    subst hfg
    exact List.forall₂_same.mpr fun d _ => ⟨rfl, (hcoeff d).mpr rfl⟩

end NormalForm

namespace Expr

/-- Normalization within the limit, and over it. -/
theorem normalize_outcome {e : Expr Float} (hint : e.Integral) (hb : e.Bounded) (limit : ℕ) :
    (¬e.Exceeds limit ∧ e.normalize limit = .ok (.ofPolynomial e.toPolynomial) ∧
      ∀ d, Exactly (Float.ofInt (e.toPolynomial.coeff d)) (e.toPolynomial.coeff d)) ∨
    (e.Exceeds limit ∧ ∃ degree, limit < degree ∧
      e.normalize limit = .error (.domain (.degreeOverLimit degree limit))) := by
  have houtcome := expand_outcome limit hint hb
  unfold normalize
  generalize e.expand limit = answer at houtcome
  cases houtcome with
  | within hwithin hp =>
      exact Or.inl ⟨hwithin, congrArg Except.ok hp.toNormalForm_eq, hp.exactly_coeff⟩
  | refused hexcess hdegree => exact Or.inr ⟨hexcess, _, hdegree, rfl⟩

/-- An accepted tree has the normal form of its polynomial. -/
theorem eq_ofPolynomial_of_normalize {e : Expr Float} {limit : ℕ} {p : NormalForm Float}
    (hint : e.Integral) (hb : e.Bounded) (h : e.normalize limit = .ok p) :
    p = .ofPolynomial e.toPolynomial ∧
      ∀ d, Exactly (Float.ofInt (e.toPolynomial.coeff d)) (e.toPolynomial.coeff d) := by
  rcases normalize_outcome hint hb limit with ⟨-, hok, hcoeff⟩ | ⟨-, degree, -, herror⟩
  · exact ⟨Except.ok.inj (h.symm.trans hok), hcoeff⟩
  · cases h.symm.trans herror

/-- **Normalization of integer expressions is exact.**  It fails, naming
the limit, exactly when the true degree of a product or a power in the
tree exceeds the limit; otherwise it answers with the nonzero terms of the
polynomial, coefficients exact.  Of two accepted trees the normal forms
are equal exactly when the polynomials are. -/
theorem normalize_exact {e : Expr Float} (hint : e.Integral) (hb : e.Bounded) (limit : ℕ) :
    ((∃ error, e.normalize limit = .error error) ↔ e.Exceeds limit) ∧
    (∀ error, e.normalize limit = .error error →
      ∃ degree, limit < degree ∧ error = .domain (.degreeOverLimit degree limit)) ∧
    (¬e.Exceeds limit → e.normalize limit = .ok (.ofPolynomial e.toPolynomial) ∧
      ∀ t ∈ (NormalForm.ofPolynomial e.toPolynomial).terms,
        Exactly t.2 (e.toPolynomial.coeff t.1)) ∧
    ∀ (e' : Expr Float) (limit' : ℕ) (p p' : NormalForm Float), e'.Integral → e'.Bounded →
      e.normalize limit = .ok p → e'.normalize limit' = .ok p' →
        (p.same p' = true ↔ e.toPolynomial = e'.toPolynomial) := by
  refine ⟨?_, ?_, ?_, ?_⟩
  · rcases normalize_outcome hint hb limit with ⟨hwithin, hok, -⟩ | ⟨hexcess, _, -, herror⟩
    · refine iff_of_false ?_ hwithin
      intro hfails
      obtain ⟨error, herror⟩ := hfails
      cases hok.symm.trans herror
    · exact iff_of_true ⟨_, herror⟩ hexcess
  · intro error h
    rcases normalize_outcome hint hb limit with ⟨-, hok, -⟩ | ⟨-, degree, hdegree, herror⟩
    · cases h.symm.trans hok
    · exact ⟨degree, hdegree, Except.error.inj (h.symm.trans herror)⟩
  · intro hwithin
    rcases normalize_outcome hint hb limit with ⟨-, hok, hcoeff⟩ | ⟨hexcess, -⟩
    · refine ⟨hok, fun t ht => ?_⟩
      obtain ⟨d, -, rfl⟩ := List.mem_map.mp ht
      exact hcoeff d
    · exact absurd hexcess hwithin
  · intro e' limit' p p' hint' hb' h h'
    obtain ⟨rfl, hcoeff⟩ := eq_ofPolynomial_of_normalize hint hb h
    obtain ⟨rfl, hcoeff'⟩ := eq_ofPolynomial_of_normalize hint' hb' h'
    exact NormalForm.same_ofPolynomial_iff hcoeff hcoeff'

/-- The product `(x + 1)·(x − 1)` and the difference `x² − 1` are both
accepted up to degree two, with equal normal forms; up to degree one the
product is refused. -/
theorem normalize_exact_difference_of_squares :
    let one : Expr Float := const (Float.ofNat 1)
    let product := mul (add var one) (sub var one)
    let difference := sub (pow var 2) one
    (∃ error, product.normalize 1 = .error error) ∧
      ∃ p p', product.normalize 2 = .ok p ∧ difference.normalize 2 = .ok p' ∧
        p.same p' = true := by
  intro one product difference
  have hone : toInt? (Float.ofNat 1) = some 1 :=
    (toInt?_eq_some_iff _ 1).mpr (exactly_ofNat (by norm_num))
  have hproduct : product.Integral ∧ product.Bounded := by
    refine ⟨by simp [product, one, Integral, hone], ?_⟩
    intro s hs
    simp only [product, one, subtrees, List.mem_cons, List.mem_append, List.not_mem_nil,
      or_false] at hs
    rcases hs with rfl | (rfl | rfl | rfl) | rfl | rfl | rfl <;> simp [magnitude, hone]
  have hdifference : difference.Integral ∧ difference.Bounded := by
    refine ⟨by simp [difference, one, Integral, hone], ?_⟩
    intro s hs
    simp only [difference, one, subtrees, List.mem_cons, List.mem_append, List.not_mem_nil,
      or_false] at hs
    rcases hs with rfl | (rfl | rfl) | rfl <;> simp [magnitude, hone]
  have hplus : (X + 1 : ℤ[X]).natDegree = 1 := natDegree_X_add_C 1
  have hminus : (X - 1 : ℤ[X]).natDegree = 1 := natDegree_X_sub_C 1
  have hover : product.Exceeds 1 := by
    refine ⟨product, product.mem_subtrees_self, ?_⟩
    simp only [product, one, OverLimit, toPolynomial, hone, Option.getD_some, C_1,
      hplus, hminus]
    norm_num
  have hwithin : ¬product.Exceeds 2 := by
    simp [product, one, Exceeds, subtrees, OverLimit, toPolynomial, hone, hplus, hminus]
  have hwithin' : ¬difference.Exceeds 2 := by
    simp [difference, one, Exceeds, subtrees, OverLimit, toPolynomial]
  obtain ⟨hfails, -, -, -⟩ := normalize_exact hproduct.1 hproduct.2 1
  obtain ⟨-, -, hok, hequal⟩ := normalize_exact hproduct.1 hproduct.2 2
  obtain ⟨-, -, hok', -⟩ := normalize_exact hdifference.1 hdifference.2 2
  refine ⟨hfails.mpr hover, _, _, (hok hwithin).1, (hok' hwithin').1, ?_⟩
  refine (hequal difference 2 _ _ hdifference.1 hdifference.2 (hok hwithin).1
    (hok' hwithin').1).mpr ?_
  simp only [product, difference, one, toPolynomial, hone, Option.getD_some, C_1]
  ring

end Expr

end Univariate
