import Univariate.Proofs.Binary64.Integers
import Univariate.Proofs.Expr.Folding
import Univariate.Proofs.NormalForm.Polynomial

/-!
# The value of an expression and of its normal form

A tree is evaluated node by node, its normal form by a Horner scheme over
the gaps between the degrees.  At an integer, while less than `2⁴⁹` goes
into the value of every subtree, both come to the value of the polynomial,
exactly.  No intermediate result of the Horner scheme exceeds the sum of the
magnitudes of all terms, and this sum is bounded by what goes into the tree:
replacing subtraction by addition, and numbers by their magnitudes, gives a
polynomial whose coefficients bound those of the polynomial of the tree.

* `Expr.magnitudeAt`, `Expr.BoundedAt` — what goes into a value;
* `Expr.exactly_eval` — evaluation of the tree;
* `Majorizes`, `Expr.exists_majorant` — bounds for all coefficients at once;
* `NormalForm.exactly_hornerFrom` — the Horner scheme;
* `Expr.eval_normalize` — the normal form has the value of the tree, folded
  or not.
-/

namespace Univariate

open Binary64 Polynomial

/-! ## What goes into a value -/

namespace Expr

variable {e : Expr Float} {a : ℤ} {x : Float}

/-- The value at a point of the tree without its signs, where the variable
counts for at least one. -/
def magnitudeAt (a : ℤ) : Expr Float → ℕ
  | const c => ((toInt? c).getD 0).natAbs
  | var => max a.natAbs 1
  | add l r | sub l r => l.magnitudeAt a + r.magnitudeAt a
  | mul l r => l.magnitudeAt a * r.magnitudeAt a
  | div _ _ => 0
  | pow base n => base.magnitudeAt a ^ n
  | neg inner => inner.magnitudeAt a

/-- Less than `2⁴⁹` goes into the value of every subtree. -/
def BoundedAt (a : ℤ) (e : Expr Float) : Prop := ∀ s ∈ e.subtrees, s.magnitudeAt a < 2 ^ 49

theorem BoundedAt.self (h : e.BoundedAt a) : e.magnitudeAt a < 2 ^ 49 := h e e.mem_subtrees_self

/-- The magnitude is what goes into the value at a unit. -/
theorem magnitude_le_magnitudeAt (e : Expr Float) (a : ℤ) : e.magnitude ≤ e.magnitudeAt a := by
  induction e with
  | const c => exact le_rfl
  | var => exact le_max_right _ _
  | add l r ihl ihr | sub l r ihl ihr => exact Nat.add_le_add ihl ihr
  | mul l r ihl ihr => exact Nat.mul_le_mul ihl ihr
  | div l r => exact le_rfl
  | pow base n ih => exact Nat.pow_le_pow_left ih n
  | neg inner ih => exact ih

theorem BoundedAt.bounded (h : e.BoundedAt a) : e.Bounded :=
  fun s hs => (s.magnitude_le_magnitudeAt a).trans_lt (h s hs)

/-- What goes into a value bounds it. -/
theorem natAbs_eval_le (e : Expr Float) (a : ℤ) :
    (e.toPolynomial.eval a).natAbs ≤ e.magnitudeAt a := by
  induction e with
  | const c => rw [toPolynomial, eval_C]; exact le_rfl
  | var => rw [toPolynomial, eval_X]; exact le_max_left _ _
  | add l r ihl ihr =>
      rw [toPolynomial, eval_add]
      exact (Int.natAbs_add_le _ _).trans (Nat.add_le_add ihl ihr)
  | sub l r ihl ihr =>
      rw [toPolynomial, eval_sub]
      exact (Int.natAbs_sub_le _ _).trans (Nat.add_le_add ihl ihr)
  | mul l r ihl ihr =>
      rw [toPolynomial, eval_mul, Int.natAbs_mul]
      exact Nat.mul_le_mul ihl ihr
  | div l r => rw [toPolynomial, eval_zero]; exact le_rfl
  | pow base n ih =>
      rw [toPolynomial, eval_pow, Int.natAbs_pow]
      exact Nat.pow_le_pow_left ih n
  | neg inner ih =>
      rw [toPolynomial, eval_neg, Int.natAbs_neg]
      exact ih

/-- **Evaluating the tree gives the value of its polynomial.** -/
theorem exactly_eval (hint : e.Integral) (hx : Exactly x a) (hb : e.BoundedAt a) :
    Exactly (e.eval x) (e.toPolynomial.eval a : ℤ) := by
  have hfits : ∀ {s : Expr Float}, s.BoundedAt a → (s.toPolynomial.eval a).natAbs < 2 ^ 53 :=
    fun {s} hs => ((s.natAbs_eval_le a).trans_lt hs.self).trans (by norm_num)
  have hvalue := hfits hb
  induction e with
  | const c =>
      obtain ⟨n, hn⟩ := Option.isSome_iff_exists.mp hint
      rw [eval, toPolynomial, eval_C, hn, Option.getD_some]
      exact (toInt?_eq_some_iff c n).mp hn
  | var =>
      rw [eval, toPolynomial, eval_X]
      exact hx
  | add l r ihl ihr =>
      obtain ⟨-, hl, hr⟩ := (forall_subtrees_binary rfl).mp hb
      rw [toPolynomial, eval_add] at hvalue ⊢
      exact (ihl hint.1 hl (hfits hl)).add_int (ihr hint.2 hr (hfits hr)) hvalue
  | sub l r ihl ihr =>
      obtain ⟨-, hl, hr⟩ := (forall_subtrees_binary rfl).mp hb
      rw [toPolynomial, eval_sub] at hvalue ⊢
      exact (ihl hint.1 hl (hfits hl)).sub_int (ihr hint.2 hr (hfits hr)) hvalue
  | mul l r ihl ihr =>
      obtain ⟨-, hl, hr⟩ := (forall_subtrees_binary rfl).mp hb
      rw [toPolynomial, eval_mul] at hvalue ⊢
      exact (ihl hint.1 hl (hfits hl)).mul_int (ihr hint.2 hr (hfits hr)) hvalue
  | div l r ihl ihr => exact hint.elim
  | pow base n ih =>
      obtain ⟨-, hbase⟩ := (forall_subtrees_unary rfl).mp hb
      rw [toPolynomial, eval_pow] at hvalue ⊢
      rw [Int.natAbs_pow] at hvalue
      exact (ih hint hbase (hfits hbase)).pow_int hvalue
  | neg inner ih =>
      obtain ⟨-, hinner⟩ := (forall_subtrees_unary rfl).mp hb
      rw [toPolynomial, eval_neg, Int.cast_neg]
      exact (ih hint hinner (hfits hinner)).neg

end Expr

/-! ## Bounds for all coefficients -/

/-- The coefficients of the second polynomial bound the magnitudes of those
of the first. -/
def Majorizes (g : ℕ[X]) (f : ℤ[X]) : Prop := ∀ d, (f.coeff d).natAbs ≤ g.coeff d

namespace Majorizes

variable {f f' : ℤ[X]} {g g' : ℕ[X]}

theorem const (c : ℤ) : Majorizes (C c.natAbs) (C c) := by
  intro d
  rw [coeff_C, coeff_C]
  split <;> rfl

theorem var : Majorizes X X := by
  intro d
  rw [coeff_X, coeff_X]
  split <;> rfl

theorem add (h : Majorizes g f) (h' : Majorizes g' f') : Majorizes (g + g') (f + f') := by
  intro d
  rw [coeff_add, coeff_add]
  exact (Int.natAbs_add_le _ _).trans (Nat.add_le_add (h d) (h' d))

theorem neg (h : Majorizes g f) : Majorizes g (-f) := by
  intro d
  rw [coeff_neg, Int.natAbs_neg]
  exact h d

theorem mul (h : Majorizes g f) (h' : Majorizes g' f') : Majorizes (g * g') (f * f') := by
  intro d
  rw [coeff_mul, coeff_mul]
  refine (Int.natAbs_sum_le _ _).trans (Finset.sum_le_sum fun s _ => ?_)
  rw [Int.natAbs_mul]
  exact Nat.mul_le_mul (h s.1) (h' s.2)

theorem pow (h : Majorizes g f) (n : ℕ) : Majorizes (g ^ n) (f ^ n) := by
  induction n with
  | zero =>
      rw [pow_zero, pow_zero]
      exact const 1
  | succ n ih =>
      rw [pow_succ, pow_succ]
      exact ih.mul h

/-- The magnitudes of the terms add up to no more than the value of the
majorant. -/
theorem sum_le_eval (h : Majorizes g f) (x : ℕ) :
    ∑ d ∈ f.support, (f.coeff d).natAbs * x ^ d ≤ g.eval x := by
  have hsubset : f.support ⊆ g.support := by
    intro d hd
    have hpos : 0 < (f.coeff d).natAbs := Int.natAbs_pos.mpr (mem_support_iff.mp hd)
    exact mem_support_iff.mpr (hpos.trans_le (h d)).ne'
  calc
    _ ≤ ∑ d ∈ f.support, g.coeff d * x ^ d :=
      Finset.sum_le_sum fun d _ => Nat.mul_le_mul_right _ (h d)
    _ ≤ ∑ d ∈ g.support, g.coeff d * x ^ d := Finset.sum_le_sum_of_subset hsubset
    _ = g.eval x := (eval_eq_sum).symm

end Majorizes

/-- **What goes into a value is the value of a majorant.** -/
theorem Expr.exists_majorant (e : Expr Float) (a : ℤ) :
    ∃ g, Majorizes g e.toPolynomial ∧ g.eval (max a.natAbs 1) = e.magnitudeAt a := by
  induction e with
  | const c => exact ⟨_, .const _, eval_C⟩
  | var => exact ⟨X, .var, eval_X⟩
  | add l r ihl ihr =>
      obtain ⟨g, hg, hl⟩ := ihl
      obtain ⟨g', hg', hr⟩ := ihr
      exact ⟨g + g', hg.add hg', by rw [eval_add, hl, hr]; rfl⟩
  | sub l r ihl ihr =>
      obtain ⟨g, hg, hl⟩ := ihl
      obtain ⟨g', hg', hr⟩ := ihr
      refine ⟨g + g', ?_, by rw [eval_add, hl, hr]; rfl⟩
      rw [toPolynomial, sub_eq_add_neg]
      exact hg.add hg'.neg
  | mul l r ihl ihr =>
      obtain ⟨g, hg, hl⟩ := ihl
      obtain ⟨g', hg', hr⟩ := ihr
      exact ⟨g * g', hg.mul hg', by rw [eval_mul, hl, hr]; rfl⟩
  | div l r =>
      refine ⟨C 0, ?_, eval_C⟩
      rw [toPolynomial, ← C_0]
      exact .const 0
  | pow base n ih =>
      obtain ⟨g, hg, hbase⟩ := ih
      exact ⟨g ^ n, hg.pow n, by rw [eval_pow, hbase]; rfl⟩
  | neg inner ih =>
      obtain ⟨g, hg, hinner⟩ := ih
      exact ⟨g, hg.neg, hinner⟩

/-! ## The Horner scheme -/

namespace NormalForm

variable {f : ℤ[X]} {a A : ℤ} {x acc : Float} {size : ℕ}

/-- At a point the value of a term is at most that of its magnitude. -/
theorem natAbs_mul_pow_le (ha : a.natAbs ≤ size) (A : ℤ) (k : ℕ) :
    (A * a ^ k).natAbs ≤ A.natAbs * size ^ k := by
  rw [Int.natAbs_mul, Int.natAbs_pow]
  exact Nat.mul_le_mul_left _ (Nat.pow_le_pow_left ha k)

/-- Over a gap and the next term, magnitudes only add up. -/
theorem natAbs_step_le (ha : a.natAbs ≤ size) (A c : ℤ) {d above : ℕ} (hd : d ≤ above) :
    (A * a ^ (above - d) + c).natAbs * size ^ d ≤
      A.natAbs * size ^ above + c.natAbs * size ^ d := by
  have hgap : A.natAbs * size ^ (above - d) * size ^ d = A.natAbs * size ^ above := by
    rw [mul_assoc, ← pow_add, Nat.sub_add_cancel hd]
  calc
    _ ≤ ((A * a ^ (above - d)).natAbs + c.natAbs) * size ^ d :=
      Nat.mul_le_mul_right _ (Int.natAbs_add_le _ _)
    _ ≤ (A.natAbs * size ^ (above - d) + c.natAbs) * size ^ d :=
      Nat.mul_le_mul_right _ (Nat.add_le_add_right (natAbs_mul_pow_le ha A _) _)
    _ = A.natAbs * size ^ above + c.natAbs * size ^ d := by rw [add_mul, hgap]

/-- **One step of the scheme**, over a gap and the next term. -/
theorem exactly_hornerStep (hx : Exactly x a) (ha : a.natAbs ≤ size) (hsize : 1 ≤ size)
    {c : ℤ} {d above : ℕ} (hd : d ≤ above) (hacc : Exactly acc A) (hpow : size ^ above < 2 ^ 53)
    (hsum : A.natAbs * size ^ above + c.natAbs * size ^ d < 2 ^ 53) :
    Exactly (acc * Scalar.pow x (above - d) + Float.ofInt c) (A * a ^ (above - d) + c : ℤ) := by
  have hone : 1 ≤ size ^ d := Nat.one_le_pow _ _ hsize
  have hfits : a.natAbs ^ (above - d) < 2 ^ 53 :=
    calc
      _ ≤ size ^ (above - d) := Nat.pow_le_pow_left ha _
      _ ≤ size ^ above := Nat.pow_le_pow_right hsize (Nat.sub_le _ _)
      _ < 2 ^ 53 := hpow
  have hover : (A * a ^ (above - d)).natAbs < 2 ^ 53 := by
    refine lt_of_le_of_lt ?_ ((Nat.le_add_right _ _).trans_lt hsum)
    exact (natAbs_mul_pow_le ha A _).trans
      (Nat.mul_le_mul_left _ (Nat.pow_le_pow_right hsize (Nat.sub_le _ _)))
  have hcoeff : Exactly (Float.ofInt c) c := by
    refine exactly_ofInt ?_
    rw [Int.abs_eq_natAbs]
    exact_mod_cast (Nat.le_mul_of_pos_right c.natAbs hone).trans_lt (by omega)
  refine (hacc.mul_int (hx.pow_int hfits) hover).add_int hcoeff ?_
  exact (Nat.le_mul_of_pos_right _ hone).trans_lt ((natAbs_step_le ha A c hd).trans_lt hsum)

/-- **The Horner scheme is exact** while the magnitudes of what has been
summed up and of all terms that are left add up to fifty-three bits. -/
theorem exactly_hornerFrom (hx : Exactly x a) (ha : a.natAbs ≤ size) (hsize : 1 ≤ size)
    {degrees : List ℕ} {above : ℕ} (hdescending : (above :: degrees).Pairwise (· ≥ ·))
    (hacc : Exactly acc A) (hpow : size ^ above < 2 ^ 53)
    (hsum : A.natAbs * size ^ above +
      (degrees.map fun d => (f.coeff d).natAbs * size ^ d).sum < 2 ^ 53) :
    Exactly (hornerFrom x acc above (degrees.map fun d => (d, Float.ofInt (f.coeff d))))
      (A * a ^ above + (degrees.map fun d => f.coeff d * a ^ d).sum : ℤ) := by
  induction degrees generalizing above acc A with
  | nil =>
      rw [List.map_nil, List.map_nil, List.sum_nil, add_zero, hornerFrom]
      rw [List.map_nil, List.sum_nil, add_zero] at hsum
      have hfits : a.natAbs ^ above < 2 ^ 53 := (Nat.pow_le_pow_left ha above).trans_lt hpow
      exact hacc.mul_int (hx.pow_int hfits) ((natAbs_mul_pow_le ha A above).trans_lt hsum)
  | cons d degrees ih =>
      obtain ⟨hbelow, hdescending⟩ := List.pairwise_cons.mp hdescending
      have hd : d ≤ above := hbelow d List.mem_cons_self
      rw [List.map_cons, List.sum_cons] at hsum
      rw [List.map_cons, List.map_cons, List.sum_cons, hornerFrom]
      have hstep := exactly_hornerStep hx ha hsize hd hacc hpow (c := f.coeff d) (by omega)
      have hbound := natAbs_step_le ha A (f.coeff d) hd
      have hvalue : A * a ^ above + f.coeff d * a ^ d =
          (A * a ^ (above - d) + f.coeff d) * a ^ d := by
        rw [add_mul, mul_assoc, ← pow_add, Nat.sub_add_cancel hd]
      rw [← add_assoc, hvalue]
      refine ih hdescending hstep ?_ (by omega)
      exact (Nat.pow_le_pow_right hsize hd).trans_lt hpow

/-- Sums over the degrees of the terms, in their order. -/
theorem sum_map_sort {M : Type} [AddCommMonoid M] (degrees : Finset ℕ) (term : ℕ → M) :
    ((degrees.sort (· ≥ ·)).map term).sum = ∑ d ∈ degrees, term d := by
  rw [Finset.sum, ← Finset.sort_eq degrees (· ≥ ·), Multiset.map_coe, Multiset.sum_coe]

/-- **The normal form of a polynomial has its values**, while the
magnitudes of all terms add up to fifty-three bits. -/
theorem exactly_eval_ofPolynomial (hx : Exactly x a) (ha : a.natAbs ≤ size) (hsize : 1 ≤ size)
    (hsum : ∑ d ∈ f.support, (f.coeff d).natAbs * size ^ d < 2 ^ 53) :
    Exactly ((ofPolynomial f).eval x) (f.eval a : ℤ) := by
  have hzero : Exactly (Scalar.zero : Float) (0 : ℤ) := by exact_mod_cast exactly_scalar_zero
  by_cases hf : f = 0
  · rw [hf, eval_zero, ofPolynomial, support_zero, Finset.sort_empty]
    exact hzero
  have hdegree : (ofPolynomial f).degree? = some f.natDegree := by
    obtain ⟨rest, hterms⟩ := exists_terms_ofPolynomial hf
    rw [degree?, hterms]
    rfl
  have hlead : f.natDegree ∈ f.support := natDegree_mem_support_of_nonzero hf
  have hdescending : (f.natDegree :: f.support.sort (· ≥ ·)).Pairwise (· ≥ ·) := by
    refine List.pairwise_cons.mpr ⟨fun d hd => ?_, Finset.pairwise_sort _ _⟩
    exact le_natDegree_of_mem_supp d ((Finset.mem_sort _).mp hd)
  -- The leading coefficient is an integer other than zero.
  have hpow : size ^ f.natDegree < 2 ^ 53 := by
    refine lt_of_le_of_lt ?_ hsum
    calc
      _ ≤ (f.coeff f.natDegree).natAbs * size ^ f.natDegree :=
        Nat.le_mul_of_pos_left _ (Int.natAbs_pos.mpr (mem_support_iff.mp hlead))
      _ ≤ _ := Finset.single_le_sum (f := fun d => (f.coeff d).natAbs * size ^ d)
        (fun _ _ => Nat.zero_le _) hlead
  have hhorner := exactly_hornerFrom (f := f) hx ha hsize hdescending hzero hpow
    (by rwa [Int.natAbs_zero, zero_mul, zero_add, sum_map_sort])
  rw [zero_mul, zero_add, sum_map_sort] at hhorner
  rw [eval, hdegree, eval_eq_sum, sum_def]
  exact hhorner

end NormalForm

/-! ## Agreement -/

namespace Expr

/-- **The curve and the normal form agree.** -/
theorem eval_normalize {e : Expr Float} {x : Float} {a : ℤ} (hint : e.Integral)
    (hx : Exactly x a) (hb : e.BoundedAt a) {limit : ℕ} {p : NormalForm Float}
    (h : e.normalize limit = .ok p) :
    Exactly (p.eval x) (e.toPolynomial.eval a : ℤ) ∧
      Exactly (e.fold.eval x) (e.toPolynomial.eval a : ℤ) ∧
      Scalar.eq (p.eval x) (e.fold.eval x) = true := by
  obtain ⟨g, hg, hvalue⟩ := e.exists_majorant a
  have hsum : ∑ d ∈ e.toPolynomial.support,
      (e.toPolynomial.coeff d).natAbs * max a.natAbs 1 ^ d < 2 ^ 53 :=
    calc
      _ ≤ g.eval (max a.natAbs 1) := hg.sum_le_eval _
      _ = e.magnitudeAt a := hvalue
      _ < 2 ^ 53 := hb.self.trans (by norm_num)
  obtain ⟨rfl, -⟩ := eq_ofPolynomial_of_normalize hint hb.bounded h
  have hform := NormalForm.exactly_eval_ofPolynomial hx (le_max_left _ _) (le_max_right _ _) hsum
  have hcurve := exactly_eval hint hx hb
  rw [← eval_fold] at hcurve
  exact ⟨hform, hcurve, (hform.beq_iff hcurve).mpr rfl⟩

/-- The square `x² − 1` is eight at three, by either way. -/
theorem eval_normalize_square :
    let e : Expr Float := sub (pow var 2) (const (Float.ofNat 1))
    e.Integral ∧ Exactly (3 : Float) (3 : ℤ) ∧ e.BoundedAt 3 ∧
      ∃ p, e.normalize 2 = .ok p ∧ Exactly (p.eval 3) (8 : ℤ) ∧
        Exactly (e.fold.eval 3) (8 : ℤ) ∧ Scalar.eq (p.eval 3) (e.fold.eval 3) = true := by
  intro e
  have hone : toInt? (Float.ofNat 1) = some 1 :=
    (toInt?_eq_some_iff _ 1).mpr (exactly_ofNat (by norm_num))
  have hint : e.Integral := by simp [e, Integral, hone]
  have hthree : Exactly (3 : Float) (3 : ℤ) := exactly_ofNat (n := 3) (by norm_num)
  have hbounded : e.BoundedAt 3 := by
    intro s hs
    simp only [e, subtrees, List.mem_cons, List.mem_append, List.not_mem_nil, or_false] at hs
    rcases hs with rfl | (rfl | rfl) | rfl <;> simp [magnitudeAt, hone]
  have hwithin : ¬e.Exceeds 2 := by simp [e, Exceeds, subtrees, OverLimit, toPolynomial]
  have hvalue : e.toPolynomial.eval 3 = 8 := by simp [e, toPolynomial, hone]
  rcases normalize_outcome hint hbounded.bounded 2 with ⟨-, hok, -⟩ | ⟨hexceeds, -⟩
  · have hagree := eval_normalize hint hthree hbounded hok
    rw [hvalue] at hagree
    exact ⟨hint, hthree, hbounded, _, hok, hagree⟩
  · exact absurd hexceeds hwithin

end Expr

end Univariate
