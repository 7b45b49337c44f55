import Univariate.Proofs.Binary64.Distance
import Univariate.Proofs.NormalForm.Polynomial
import Univariate.Proofs.NormalForm.Refusal

/-!
# One representation for every polynomial

Terms are summed up by degree, read off a list, or left over from an
expansion.  All three leave strictly decreasing degrees and no zeros, and
none of them lets a value through that is no number.  So a polynomial has
one representation: comparing terms, looking up coefficients, and testing
for closeness without a tolerance all come to the same.

* `NormalForm.canonical_ofTerms`, `NormalForm.canonical_ofDense`,
  `NormalForm.canonical_toNormalForm` — where normal forms come from;
* `NormalForm.Built` — all that finite numbers are made into, with
  `Built.canonical` and `Built.defined`;
* `NormalForm.approxEq_comm` — closeness is symmetric;
* `NormalForm.same_iff_eq`, `NormalForm.forall_coefficient_iff`,
  `NormalForm.approxEq_zero_iff` — three ways to compare;
* `NormalForm.canonical_representation` — all of it together.
-/

namespace Univariate

open Binary64

namespace NormalForm

/-! ## Where normal forms come from -/

section Constructors

variable {α : Type} [Scalar α] {d : ℕ} {c : α} {sums : List (ℕ × α)}

/-- Terms by rising degree give a canonical form, as zeros are left out. -/
theorem canonical_ofAscending {ascending : List (ℕ × α)}
    (h : ascending.Pairwise fun s t => s.1 < t.1) : (ofAscending ascending).Canonical := by
  constructor
  · exact List.Pairwise.filter _ (List.pairwise_reverse.mpr h)
  · intro t ht
    simpa using (List.mem_filter.mp ht).2

/-- What holds of all sums, of a new one, and of one that is added to,
holds after a term has been added. -/
theorem forall_mem_addTerm {P : ℕ × α → Prop} (hsums : ∀ t ∈ sums, P t)
    (hnew : P (d, Scalar.zero + c)) (hadd : ∀ s, (d, s) ∈ sums → P (d, s + c)) :
    ∀ t ∈ addTerm d c sums, P t := by
  induction sums with
  | nil => simpa [addTerm] using hnew
  | cons u sums ih =>
      obtain ⟨e, s⟩ := u
      obtain ⟨hhead, htail⟩ := List.forall_mem_cons.mp hsums
      rw [addTerm]
      split_ifs with hlt heq
      · exact List.forall_mem_cons.mpr ⟨hnew, hsums⟩
      · subst heq
        exact List.forall_mem_cons.mpr ⟨hadd s List.mem_cons_self, htail⟩
      · exact List.forall_mem_cons.mpr
          ⟨hhead, ih htail fun s hs => hadd s (List.mem_cons_of_mem _ hs)⟩

/-- Adding a term keeps the order of the degrees. -/
theorem ascending_addTerm (d : ℕ) (c : α) (h : sums.Pairwise fun s t => s.1 < t.1) :
    (addTerm d c sums).Pairwise fun s t => s.1 < t.1 := by
  induction sums with
  | nil => exact List.pairwise_singleton _ _
  | cons u sums ih =>
      obtain ⟨e, s⟩ := u
      obtain ⟨habove, htail⟩ := List.pairwise_cons.mp h
      rw [addTerm]
      split_ifs with hlt heq
      · refine List.pairwise_cons.mpr ⟨?_, h⟩
        exact List.forall_mem_cons.mpr ⟨hlt, fun t ht => hlt.trans (habove t ht)⟩
      · exact List.pairwise_cons.mpr ⟨habove, htail⟩
      · refine List.pairwise_cons.mpr ⟨?_, ih htail⟩
        have hbelow : e < d := by omega
        exact forall_mem_addTerm (P := fun t => e < t.1) habove hbelow fun _ _ => hbelow

/-- **Any list of terms gives a canonical form**, with equal degrees summed. -/
theorem canonical_ofTerms (terms : List (ℕ × α)) : (ofTerms terms).Canonical := by
  refine canonical_ofAscending ?_
  induction terms using List.reverseRecOn with
  | nil => exact List.Pairwise.nil
  | append_singleton terms t ih =>
      rw [List.foldl_append]
      exact ascending_addTerm t.1 t.2 ih

/-- **Any list of coefficients gives a canonical form**. -/
theorem canonical_ofDense (cs : List α) : (ofDense cs).Canonical := by
  refine ⟨descending_ofDense cs, ?_⟩
  rintro ⟨d, c⟩ ht
  exact (mem_ofDense.mp ht).2

end Constructors

/-- No coefficient is undefined. -/
def Defined (p : NormalForm Float) : Prop := ∀ t ∈ p.terms, t.2.isNaN = false

/-- Sums of finite numbers may overflow, and stay infinite then. -/
theorem defined_ofTerms {terms : List (ℕ × Float)} (h : ∀ t ∈ terms, t.2.isFinite = true) :
    Defined (ofTerms terms) := by
  have hsums : ∀ t ∈ terms.foldl (fun sums t => addTerm t.1 t.2 sums) [], t.2.isNaN = false := by
    induction terms using List.reverseRecOn with
    | nil => simp
    | append_singleton terms t ih =>
        rw [List.forall_mem_append, List.forall_mem_singleton] at h
        rw [List.foldl_append]
        have hzero : (Scalar.zero : Float).isNaN = false := exactly_scalar_zero.isNaN
        exact forall_mem_addTerm (P := fun t => t.2.isNaN = false) (ih h.1)
          (isNaN_add hzero h.2) fun s hs => isNaN_add (ih h.1 _ hs) h.2
  intro t ht
  exact hsums t (List.mem_reverse.mp (List.mem_of_mem_filter ht))

theorem defined_ofDense {cs : List Float} (h : ∀ c ∈ cs, c.isFinite = true) :
    Defined (ofDense cs) := by
  rintro ⟨d, c⟩ ht
  obtain ⟨q, hq⟩ := (isFinite_iff c).mp (h c (List.mem_of_getElem? (mem_ofDense.mp ht).1))
  exact hq.isNaN

/-- **What counts** in an expansion is neither zero nor undefined, since it
exceeds a magnitude. -/
theorem canonical_toNormalForm {p : Expansion Float} (hp : p.Ascending) (hweighed : p.Weighed) :
    p.toNormalForm.Canonical ∧ Defined p.toNormalForm := by
  have hterms : ∀ t ∈ p.toNormalForm.terms,
      Scalar.eq t.2 Scalar.zero = false ∧ t.2.isNaN = false := by
    intro t ht
    obtain ⟨s, hs, rfl⟩ := List.mem_map.mp ht
    obtain ⟨hmem, hlive⟩ := List.mem_filter.mp (List.mem_reverse.mp hs)
    refine ⟨?_, isNaN_of_lt hlive⟩
    by_contra hzero
    rw [Slot.isLive_of_value_eq_zero (hweighed s hmem) (Bool.not_eq_false _ ▸ hzero)] at hlive
    cases hlive
  refine ⟨⟨?_, fun t ht => (hterms t ht).1⟩, fun t ht => (hterms t ht).2⟩
  exact List.Pairwise.map _ (fun _ _ hlt => hlt) (List.pairwise_reverse.mpr hp.live)

/-- The normal forms that finite numbers are made into.  The constants of
an expression may be anything. -/
inductive Built : NormalForm Float → Prop
  | constant {c : Float} (hc : c.isFinite = true) : Built (constant c)
  | ofTerms {terms : List (ℕ × Float)} (h : ∀ t ∈ terms, t.2.isFinite = true) :
      Built (ofTerms terms)
  | ofDense {cs : List Float} (h : ∀ c ∈ cs, c.isFinite = true) : Built (ofDense cs)
  | normalize {e : Expr Float} {limit : ℕ} {p : NormalForm Float}
      (h : e.normalize limit = .ok p) : Built p

/-- **An expression gives a canonical form** in which nothing is undefined. -/
theorem canonical_normalize {e : Expr Float} {limit : ℕ} {p : NormalForm Float}
    (h : e.normalize limit = .ok p) : p.Canonical ∧ Defined p := by
  obtain ⟨slots, hslots, h⟩ := bind_eq_ok h
  obtain rfl := Except.ok.inj h
  exact canonical_toNormalForm (Expr.ascending_expand hslots) (Expr.weighed_expand hslots)

variable {p q : NormalForm Float}

/-- All that is built is canonical. -/
theorem Built.canonical (h : Built p) : p.Canonical := by
  cases h with
  | constant hc => exact canonical_ofTerms _
  | ofTerms h => exact canonical_ofTerms _
  | ofDense h => exact canonical_ofDense _
  | normalize h => exact (canonical_normalize h).1

/-- Nothing that is built has an undefined coefficient. -/
theorem Built.defined (h : Built p) : Defined p := by
  cases h with
  | constant hc => exact defined_ofTerms (List.forall_mem_singleton.mpr hc)
  | ofTerms h => exact defined_ofTerms h
  | ofDense h => exact defined_ofDense h
  | normalize h => exact (canonical_normalize h).2

/-- What is defined equals itself. -/
theorem Defined.same_self (h : Defined p) : p.same p = true := by
  rw [same_iff, List.forall₂_same]
  intro t ht
  refine ⟨rfl, ?_⟩
  have hself : Scalar.eq t.2 t.2 = !t.2.isNaN := beq_self t.2
  rw [hself, h t ht]
  rfl

/-! ## Closeness -/

/-- **Closeness is symmetric**, whatever is compared, and up to whatever
tolerance. -/
theorem closeTo_comm (tolerance a b : Float) : closeTo tolerance a b = closeTo tolerance b a := by
  have hdistance : Scalar.abs (a - b) = Scalar.abs (b - a) := sub_abs_comm a b
  have hlarger : Scalar.max (Scalar.abs a) (Scalar.abs b) =
      Scalar.max (Scalar.abs b) (Scalar.abs a) := max_abs_comm a b
  rw [closeTo, closeTo, hdistance, hlarger]

/-- **Comparing within a tolerance is symmetric**, at every tolerance. -/
theorem approxEq_comm (p q : NormalForm Float) (tolerance : Float) :
    p.approxEq q tolerance = q.approxEq p tolerance := by
  have hcomm : (fun d => closeTo tolerance (p.coefficient d) (q.coefficient d)) =
      fun d => closeTo tolerance (q.coefficient d) (p.coefficient d) :=
    funext fun d => closeTo_comm tolerance _ _
  rw [approxEq, approxEq, hcomm, List.map_append, List.map_append, List.all_append,
    List.all_append, Bool.and_comm]

/-- Without a tolerance, only equal numbers are close. -/
theorem closeTo_zero_iff {a b : Float} (ha : a.isFinite = true) (hb : b.isFinite = true) :
    closeTo Scalar.zero a b = true ↔ Scalar.eq a b = true := by
  obtain ⟨α, hα⟩ := (isFinite_iff a).mp ha
  obtain ⟨β, hβ⟩ := (isFinite_iff b).mp hb
  have hlarger := (hα.abs.max hβ.abs).max exactly_scalar_one
  have hshare := exactly_scalar_zero.mul hlarger (by simpa using exactly_scalar_zero.representable)
  rw [zero_mul] at hshare
  have heq : Scalar.eq a b = true ↔ α = β := hα.beq_iff hβ
  have hle := abs_sub_le_zero_iff hα hβ hshare
  rw [heq, ← hle]
  exact Iff.rfl

/-! ## Three ways to compare -/

/-- If the terms are finite, then so is what every degree has, zero included. -/
theorem isFinite_coefficient (hfinite : ∀ t ∈ p.terms, t.2.isFinite = true) (d : ℕ) :
    (p.coefficient d).isFinite = true := by
  rcases p.coefficient_eq_zero_or_mem d with ⟨-, hzero⟩ | hmem
  · rw [hzero]
    rfl
  · exact hfinite (d, p.coefficient d) hmem

/-- The coefficients have the same values, whatever the form of a zero. -/
def Agree (p q : NormalForm Float) : Prop :=
  ∀ d, ∃ v, Exactly (p.coefficient d) v ∧ Exactly (q.coefficient d) v

theorem Agree.symm (h : Agree p q) : Agree q p := fun d => (h d).imp fun _ => And.symm

/-- Where there is a coefficient, the other one is the same number. -/
theorem Agree.subset (h : Agree p q) (hp : p.Canonical) {t : ℕ × Float} (ht : t ∈ p.terms) :
    t ∈ q.terms := by
  obtain ⟨d, c⟩ := t
  obtain ⟨v, hpv, hqv⟩ := h d
  rw [coefficient_of_mem hp.1 ht] at hpv
  have hv : v ≠ 0 := hp.ne_zero ht hpv
  rcases q.coefficient_eq_zero_or_mem d with ⟨-, hzero⟩ | hmem
  · rw [hzero] at hqv
    exact absurd (hqv.unique exactly_scalar_zero) hv
  · rwa [← hpv.eq_of_ne_zero hqv hv] at hmem

/-- **The coefficients determine a normal form.** -/
theorem Agree.eq (h : Agree p q) (hp : p.Canonical) (hq : q.Canonical) : p = q := by
  have hmem (t : ℕ × Float) : t ∈ p.terms ↔ t ∈ q.terms := ⟨h.subset hp, h.symm.subset hq⟩
  have hirrefl : Std.Irrefl fun s t : ℕ × Float => t.1 < s.1 := ⟨fun s => lt_irrefl s.1⟩
  have hasymm : Std.Asymm fun s t : ℕ × Float => t.1 < s.1 := ⟨fun s t => lt_asymm⟩
  exact congrArg NormalForm.mk (hp.1.eq_of_mem_iff hq.1 hmem)

/-- A finite number equals itself, as only undefined ones do not. -/
theorem eq_self_of_isFinite {a : Float} (ha : a.isFinite = true) : Scalar.eq a a = true := by
  obtain ⟨α, hα⟩ := (isFinite_iff a).mp ha
  exact (hα.beq_iff hα).mpr rfl

section Finite

variable (hp : p.Canonical) (hq : q.Canonical) (hpf : ∀ t ∈ p.terms, t.2.isFinite = true)
  (hqf : ∀ t ∈ q.terms, t.2.isFinite = true)

include hp hq hpf hqf

/-- Comparing coefficients. -/
theorem forall_coefficient_iff :
    (∀ d, Scalar.eq (p.coefficient d) (q.coefficient d) = true) ↔ p = q := by
  constructor
  · intro h
    refine Agree.eq (fun d => ?_) hp hq
    obtain ⟨v, hv⟩ := (isFinite_iff _).mp (isFinite_coefficient hpf d)
    obtain ⟨w, hw⟩ := (isFinite_iff _).mp (isFinite_coefficient hqf d)
    obtain rfl : v = w := (hv.beq_iff hw).mp (h d)
    exact ⟨v, hv, hw⟩
  · rintro rfl d
    exact eq_self_of_isFinite (isFinite_coefficient hpf d)

/-- Comparing terms. -/
theorem same_iff_eq : p.same q = true ↔ p = q := by
  rw [same_iff]
  constructor
  · intro hsame
    obtain ⟨hlength, hzip⟩ := List.forall₂_iff_zip.mp hsame
    have hterms : List.Forall₂ (· = ·) p.terms q.terms := by
      refine List.forall₂_iff_zip.mpr ⟨hlength, fun {s t} hst => ?_⟩
      obtain ⟨hs, ht⟩ := List.of_mem_zip hst
      obtain ⟨hdegree, heq⟩ := hzip hst
      obtain ⟨v, hv⟩ := (isFinite_iff s.2).mp (hpf s hs)
      obtain ⟨w, hw⟩ := (isFinite_iff t.2).mp (hqf t ht)
      obtain rfl : v = w := (hv.beq_iff hw).mp heq
      exact Prod.ext hdegree (hv.eq_of_ne_zero hw (hp.ne_zero hs hv))
    exact congrArg NormalForm.mk (List.forall₂_eq_eq_eq ▸ hterms)
  · rintro rfl
    exact List.forall₂_same.mpr fun t ht => ⟨rfl, eq_self_of_isFinite (hpf t ht)⟩

/-- Comparing within no tolerance. -/
theorem approxEq_zero_iff : p.approxEq q Scalar.zero = true ↔ p = q := by
  have hclose (d : ℕ) : closeTo Scalar.zero (p.coefficient d) (q.coefficient d) = true ↔
      Scalar.eq (p.coefficient d) (q.coefficient d) = true :=
    closeTo_zero_iff (isFinite_coefficient hpf d) (isFinite_coefficient hqf d)
  rw [← forall_coefficient_iff hp hq hpf hqf, approxEq, List.all_eq_true]
  constructor
  · intro h d
    rcases p.coefficient_eq_zero_or_mem d with ⟨-, hpzero⟩ | hmem
    · rcases q.coefficient_eq_zero_or_mem d with ⟨-, hqzero⟩ | hmem
      · -- A degree that neither has is not looked at.
        rw [hpzero, hqzero]
        rfl
      · exact (hclose d).mp (h d (List.mem_map_of_mem (List.mem_append_right p.terms hmem)))
    · exact (hclose d).mp (h d (List.mem_map_of_mem (List.mem_append_left q.terms hmem)))
  · intro h d _
    exact (hclose d).mpr (h d)

end Finite

/-- The coefficients that are given back are equal as numbers, without the
zeros at the end. -/
theorem forall₂_coefficients_ofDense {cs : List Float} (h : ∀ c ∈ cs, c.isFinite = true) :
    List.Forall₂ (fun b c => Scalar.eq b c = true) (ofDense cs).coefficients
      (cs.rdropWhile (Scalar.eq · Scalar.zero)) := by
  rw [coefficients_ofDense, List.forall₂_map_left_iff, List.forall₂_same]
  intro c hc
  obtain ⟨v, hv⟩ := (isFinite_iff c).mp (h c ((List.rdropWhile_prefix _ cs).subset hc))
  exact ((exactly_flush hv).beq_iff hv).mpr rfl

/-- **One representation for every polynomial.**  Whatever finite numbers
are made into has strictly decreasing degrees and no zeros, and is given
back by its coefficients; a list of finite numbers is given back without
the zeros at its end.  Between normal forms with finite coefficients it
makes no difference whether terms are compared, or coefficients at all
degrees, or closeness without a tolerance.  Closeness is symmetric. -/
theorem canonical_representation :
    (∀ p, Built p → p.Canonical ∧ ofDense p.coefficients = p ∧
      (ofDense p.coefficients).same p = true) ∧
    (∀ cs : List Float, (∀ c ∈ cs, c.isFinite = true) →
      List.Forall₂ (fun b c => Scalar.eq b c = true) (ofDense cs).coefficients
        (cs.rdropWhile (Scalar.eq · Scalar.zero))) ∧
    (∀ p q : NormalForm Float, p.Canonical → q.Canonical →
      (∀ t ∈ p.terms, t.2.isFinite = true) → (∀ t ∈ q.terms, t.2.isFinite = true) →
        (p.same q = true ↔ ∀ d, Scalar.eq (p.coefficient d) (q.coefficient d) = true) ∧
        (p.same q = true ↔ p.approxEq q Scalar.zero = true)) ∧
    ∀ (p q : NormalForm Float) (tolerance : Float),
      p.approxEq q tolerance = q.approxEq p tolerance := by
  refine ⟨fun p hp => ?_, fun cs => forall₂_coefficients_ofDense, fun p q hp hq hpf hqf => ?_,
    approxEq_comm⟩
  · have hback := ofDense_coefficients rfl hp.canonical
    exact ⟨hp.canonical, hback, by rw [hback]; exact hp.defined.same_self⟩
  · rw [same_iff_eq hp hq hpf hqf, forall_coefficient_iff hp hq hpf hqf,
      approxEq_zero_iff hp hq hpf hqf]
    exact ⟨Iff.rfl, Iff.rfl⟩

/-- `3x² - 1` from terms, and from coefficients. -/
theorem canonical_representation_binomial :
    let p : NormalForm Float := ofTerms [(2, 1), (0, -1), (2, 2)]
    let cs : List Float := [-1, 0, 3, 0]
    Built p ∧ (∀ c ∈ cs, c.isFinite = true) ∧ (∀ t ∈ p.terms, t.2.isFinite = true) ∧
      (∀ t ∈ (ofDense cs).terms, t.2.isFinite = true) ∧
      (ofDense p.coefficients).same p = true ∧
      List.Forall₂ (fun b c => Scalar.eq b c = true) (ofDense cs).coefficients
        (cs.rdropWhile (Scalar.eq · Scalar.zero)) ∧
      p.same (ofDense cs) = true ∧ p.approxEq (ofDense cs) Scalar.zero = true := by
  intro p cs
  have hterms : ∀ t ∈ ([(2, 1), (0, -1), (2, 2)] : List (ℕ × Float)), t.2.isFinite = true := by
    decide
  have hcs : ∀ c ∈ cs, c.isFinite = true := by decide
  have hpf : ∀ t ∈ p.terms, t.2.isFinite = true := by decide +kernel
  have hqf : ∀ t ∈ (ofDense cs).terms, t.2.isFinite = true := by decide +kernel
  have hsame : p.same (ofDense cs) = true := by decide +kernel
  have hp : Built p := .ofTerms hterms
  obtain ⟨hbuilt, hdense, hcompare, -⟩ := canonical_representation
  obtain ⟨hcanonical, -, hback⟩ := hbuilt p hp
  obtain ⟨hcanonical', -, -⟩ := hbuilt (ofDense cs) (.ofDense hcs)
  have hclose := (hcompare p (ofDense cs) hcanonical hcanonical' hpf hqf).2
  exact ⟨hp, hcs, hpf, hqf, hback, hdense cs hcs, hsame, hclose.mp hsame⟩

end NormalForm

end Univariate
