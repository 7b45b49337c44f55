import Mathlib.Data.List.DropRight
import Univariate.NormalForm
import Univariate.Proofs.Computation

/-!
# Terms and coefficients

A normal form lists the terms that are there, the list of all coefficients
has zeros in between, and either can be made from the other.  No law of
arithmetic is used: what is left out is what tests as zero.

* `NormalForm.coefficient_of_mem`, `NormalForm.coefficient_of_forall_ne` —
  looking a coefficient up;
* `NormalForm.mem_ofDense`, `NormalForm.coefficient_ofDense` — terms from
  all coefficients;
* `NormalForm.exists_coefficients` — the list of all coefficients ends
  with the leading one;
* `NormalForm.ofDense_coefficients`, `NormalForm.coefficients_ofDense` —
  there and back, both ways.
-/

namespace Univariate

namespace NormalForm

variable {α : Type} [Scalar α] {p : NormalForm α} {d : ℕ} {c : α}

/-! ## Looking a coefficient up -/

/-- The coefficient of a term is found by its degree. -/
theorem coefficient_of_mem (hp : p.terms.Pairwise fun s t => t.1 < s.1) (h : (d, c) ∈ p.terms) :
    p.coefficient d = c := by
  obtain ⟨terms⟩ := p
  obtain ⟨above, below, rfl⟩ := List.append_of_mem h
  have habove : above.find? (·.1 == d) = none := by
    rw [List.find?_eq_none]
    intro t ht
    have hlt := (List.pairwise_append.mp hp).2.2 t ht (d, c) List.mem_cons_self
    simpa using hlt.ne'
  simp [coefficient, List.find?_append, habove]

/-- A degree without a term has the coefficient zero. -/
theorem coefficient_of_forall_ne (h : ∀ t ∈ p.terms, t.1 ≠ d) : p.coefficient d = Scalar.zero := by
  have hnone : p.terms.find? (·.1 == d) = none := by
    rw [List.find?_eq_none]
    intro t ht
    simpa using h t ht
  rw [coefficient, hnone]

/-- A coefficient is that of a term, or zero. -/
theorem coefficient_eq_zero_or_mem (p : NormalForm α) (d : ℕ) :
    ((∀ t ∈ p.terms, t.1 ≠ d) ∧ p.coefficient d = Scalar.zero) ∨
      (d, p.coefficient d) ∈ p.terms := by
  by_cases h : ∀ t ∈ p.terms, t.1 ≠ d
  · exact Or.inl ⟨h, coefficient_of_forall_ne h⟩
  · right
    rw [coefficient]
    cases hfind : p.terms.find? (·.1 == d) with
    | none => exact absurd (fun t ht => by simpa using List.find?_eq_none.mp hfind t ht) h
    | some t =>
        obtain rfl : t.1 = d := by simpa using List.find?_some hfind
        exact List.mem_of_find?_eq_some hfind

/-! ## From all coefficients -/

/-- The terms are the places of the list that do not hold zero. -/
theorem mem_ofDense {cs : List α} :
    (d, c) ∈ (ofDense cs).terms ↔ cs[d]? = some c ∧ Scalar.eq c (Scalar.zero : α) = false := by
  rw [ofDense, ofAscending, List.mem_filter, List.mem_reverse, List.mem_map]
  simp only [Bool.not_eq_true', Prod.mk.injEq, Prod.exists]
  constructor
  · rintro ⟨⟨b, e, hmem, rfl, rfl⟩, hne⟩
    exact ⟨List.mem_zipIdx_iff_getElem?.mp hmem, hne⟩
  · rintro ⟨hget, hne⟩
    exact ⟨⟨c, d, List.mem_zipIdx_iff_getElem?.mpr hget, rfl, rfl⟩, hne⟩

/-- The degrees decrease. -/
theorem descending_ofDense (cs : List α) :
    (ofDense cs).terms.Pairwise fun s t => t.1 < s.1 := by
  have hdegrees : (cs.zipIdx.map Prod.snd).Pairwise (· < ·) := by
    rw [List.zipIdx_map_snd]
    exact List.pairwise_lt_range'
  rw [ofDense, ofAscending]
  exact List.Pairwise.filter _
    (List.pairwise_reverse.mpr (List.pairwise_map.mpr (List.pairwise_map.mp hdegrees)))

/-- A coefficient that tests as zero is replaced by zero. -/
def flush (c : α) : α := if Scalar.eq c Scalar.zero = true then Scalar.zero else c

/-- **A coefficient that was given** comes back, up to the form of a zero. -/
theorem coefficient_ofDense (cs : List α) (d : ℕ) :
    (ofDense cs).coefficient d = (cs[d]?.map flush).getD Scalar.zero := by
  have hnone (h : ∀ c, cs[d]? = some c → Scalar.eq c Scalar.zero = true) :
      (ofDense cs).coefficient d = Scalar.zero := by
    refine coefficient_of_forall_ne ?_
    rintro ⟨d, c⟩ ht rfl
    obtain ⟨hget, hkept⟩ := mem_ofDense.mp ht
    rw [h c hget] at hkept
    cases hkept
  cases hget : cs[d]? with
  | none => exact hnone fun c h => absurd (hget.symm.trans h) (Option.some_ne_none c).symm
  | some c =>
      rw [Option.map_some, Option.getD_some, flush]
      split_ifs with hzero
      · refine hnone fun b hb => ?_
        rwa [← Option.some.inj (hget.symm.trans hb)]
      · have hmem := mem_ofDense.mpr ⟨hget, Bool.eq_false_iff.mpr hzero⟩
        exact coefficient_of_mem (descending_ofDense cs) hmem

/-! ## All coefficients -/

/-- Coefficients are those of terms, or zero. -/
theorem mem_fillGaps {k : ℕ} {terms : List (ℕ × α)} (hc : c ∈ fillGaps k terms) :
    c = Scalar.zero ∨ ∃ t ∈ terms, t.2 = c := by
  induction terms generalizing k with
  | nil => cases hc
  | cons t terms ih =>
      rw [fillGaps] at hc
      rcases List.mem_append.mp hc with hc | hc
      · exact Or.inl (List.eq_of_mem_replicate hc)
      · rcases List.mem_cons.mp hc with rfl | hc
        · exact Or.inr ⟨t, List.mem_cons_self, rfl⟩
        · refine (ih hc).imp_right ?_
          rintro ⟨s, hs, rfl⟩
          exact ⟨s, List.mem_cons_of_mem t hs, rfl⟩

/-- Terms of strictly ascending degrees, the last of which is `(d, c)`,
have all their coefficients below `c`. -/
theorem exists_fillGaps {k d : ℕ} {c : α} {terms : List (ℕ × α)}
    (hascending : (terms ++ [(d, c)]).Pairwise (·.1 < ·.1))
    (hfrom : ∀ t ∈ terms ++ [(d, c)], k ≤ t.1) :
    ∃ lower, fillGaps k (terms ++ [(d, c)]) = lower ++ [c] ∧ lower.length = d - k := by
  induction terms generalizing k with
  | nil => exact ⟨List.replicate (d - k) Scalar.zero, rfl, List.length_replicate⟩
  | cons t terms ih =>
      obtain ⟨e, b⟩ := t
      rw [List.cons_append, List.pairwise_cons] at hascending
      obtain ⟨habove, htail⟩ := hascending
      obtain ⟨lower, heq, hlength⟩ := ih htail fun s hs => habove s hs
      have hd : e < d := habove (d, c) (by simp)
      have hk : k ≤ e := hfrom (e, b) (by simp)
      refine ⟨List.replicate (e - k) Scalar.zero ++ b :: lower, ?_, ?_⟩
      · rw [List.cons_append, fillGaps, heq, List.append_assoc, List.cons_append]
      · rw [List.length_append, List.length_replicate, List.length_cons, hlength]
        omega

/-- **The coefficients end with the leading one**, at the place of the
degree. -/
theorem exists_coefficients {p : NormalForm α} (hp : p.Canonical) {d : ℕ} {c : α}
    {rest : List (ℕ × α)} (hterms : p.terms = (d, c) :: rest) :
    ∃ lower, p.coefficients = lower ++ [c] ∧ lower.length = d := by
  have hreverse : p.terms.reverse = rest.reverse ++ [(d, c)] := by rw [hterms, List.reverse_cons]
  have hascending : (rest.reverse ++ [(d, c)]).Pairwise (·.1 < ·.1) := by
    rw [← hreverse, List.pairwise_reverse]
    exact hp.1
  rw [coefficients, hreverse]
  exact exists_fillGaps hascending fun t _ => Nat.zero_le t.1

/-! ## There and back -/

/-- The coefficients as terms, those that test as zero left out. -/
def ascendingFrom (k : ℕ) (cs : List α) : List (ℕ × α) :=
  ((cs.zipIdx k).map fun (c, d) => (d, c)).filter fun t => !Scalar.eq t.2 Scalar.zero

/-- The terms come from one pass over the list that counts the degrees. -/
theorem ofDense_eq (cs : List α) : ofDense cs = ⟨(ascendingFrom 0 cs).reverse⟩ := by
  rw [ofDense, ofAscending, ascendingFrom, List.filter_reverse]

theorem ascendingFrom_cons (k : ℕ) (c : α) (cs : List α) :
    ascendingFrom k (c :: cs) =
      if Scalar.eq c Scalar.zero = true then ascendingFrom (k + 1) cs
      else (k, c) :: ascendingFrom (k + 1) cs := by
  unfold ascendingFrom
  cases h : Scalar.eq c (Scalar.zero : α) <;> simp [h]

/-- No degree is below the one from which on they are counted. -/
theorem le_of_mem_ascendingFrom {k : ℕ} {cs : List α} {t : ℕ × α}
    (ht : t ∈ ascendingFrom k cs) : k ≤ t.1 := by
  obtain ⟨u, hu, rfl⟩ := List.mem_map.mp (List.mem_of_mem_filter ht)
  exact List.le_snd_of_mem_zipIdx hu

/-- Zeros at the start only move on the count. -/
theorem ascendingFrom_replicate_append (hzero : Scalar.eq (Scalar.zero : α) Scalar.zero = true)
    (k n : ℕ) (cs : List α) :
    ascendingFrom k (List.replicate n Scalar.zero ++ cs) = ascendingFrom (k + n) cs := by
  induction n generalizing k with
  | zero => rfl
  | succ n ih =>
      rw [List.replicate_succ, List.cons_append, ascendingFrom_cons, if_pos hzero, ih,
        Nat.add_right_comm, Nat.add_assoc]

/-- Filling the gaps and leaving zeros out again changes nothing. -/
theorem ascendingFrom_fillGaps (hzero : Scalar.eq (Scalar.zero : α) Scalar.zero = true) {k : ℕ}
    {terms : List (ℕ × α)} (hascending : terms.Pairwise (·.1 < ·.1)) (hfrom : ∀ t ∈ terms, k ≤ t.1)
    (hne : ∀ t ∈ terms, Scalar.eq t.2 Scalar.zero = false) :
    ascendingFrom k (fillGaps k terms) = terms := by
  induction terms generalizing k with
  | nil => rfl
  | cons t terms ih =>
      obtain ⟨d, c⟩ := t
      obtain ⟨habove, htail⟩ := List.pairwise_cons.mp hascending
      rw [List.forall_mem_cons] at hfrom hne
      have hkept : ¬Scalar.eq c Scalar.zero = true := by simp [hne.1]
      rw [fillGaps, ascendingFrom_replicate_append hzero, Nat.add_sub_cancel' hfrom.1,
        ascendingFrom_cons, if_neg hkept, ih htail habove hne.2]

/-- **A normal form is made of its coefficients.** -/
theorem ofDense_coefficients (hzero : Scalar.eq (Scalar.zero : α) Scalar.zero = true)
    (hp : p.Canonical) : ofDense p.coefficients = p := by
  have hascending : p.terms.reverse.Pairwise (·.1 < ·.1) := List.pairwise_reverse.mpr hp.1
  have hterms := ascendingFrom_fillGaps hzero hascending (fun t _ => Nat.zero_le t.1)
    fun t ht => hp.2 t (List.mem_reverse.mp ht)
  rw [ofDense_eq, coefficients, hterms, List.reverse_reverse]

/-- Dropping from the end, seen from the front. -/
theorem rdropWhile_cons {β : Type} (drops : β → Bool) (c : β) (cs : List β) :
    (c :: cs).rdropWhile drops =
      if cs.rdropWhile drops = [] then (if drops c = true then [] else [c])
      else c :: cs.rdropWhile drops := by
  rw [List.rdropWhile, List.reverse_cons, List.dropWhile_append, List.rdropWhile]
  by_cases h : cs.reverse.dropWhile drops = []
  · cases hc : drops c <;> simp [h, hc]
  · simp [h]

/-- There are no terms just if nothing is left of the list without the zeros
at its end. -/
theorem ascendingFrom_eq_nil_iff {k : ℕ} {cs : List α} :
    ascendingFrom k cs = [] ↔ cs.rdropWhile (Scalar.eq · Scalar.zero) = [] := by
  rw [List.rdropWhile_eq_nil_iff]
  induction cs generalizing k with
  | nil => simp [ascendingFrom]
  | cons c cs ih =>
      rw [ascendingFrom_cons, List.forall_mem_cons, ← ih (k := k + 1)]
      split_ifs with h <;> simp [h]

/-- A degree below all terms is filled with zero. -/
theorem fillGaps_of_lt {k : ℕ} {terms : List (ℕ × α)} (hne : terms ≠ [])
    (hfrom : ∀ t ∈ terms, k + 1 ≤ t.1) :
    fillGaps k terms = Scalar.zero :: fillGaps (k + 1) terms := by
  cases terms with
  | nil => exact absurd rfl hne
  | cons t terms =>
      have hd := hfrom t List.mem_cons_self
      have hgap : t.1 - k = t.1 - (k + 1) + 1 := by omega
      rw [fillGaps, fillGaps, hgap, List.replicate_succ, List.cons_append]

/-- Leaving zeros out and filling the gaps drops the zeros at the end. -/
theorem fillGaps_ascendingFrom (k : ℕ) (cs : List α) :
    fillGaps k (ascendingFrom k cs) = (cs.rdropWhile (Scalar.eq · Scalar.zero)).map flush := by
  induction cs generalizing k with
  | nil => rfl
  | cons c cs ih =>
      rw [ascendingFrom_cons, rdropWhile_cons]
      by_cases hc : Scalar.eq c Scalar.zero = true
      · rw [if_pos hc, if_pos hc]
        by_cases hrest : cs.rdropWhile (Scalar.eq · Scalar.zero) = []
        · rw [if_pos hrest, ascendingFrom_eq_nil_iff.mpr hrest]
          rfl
        · have hne : ascendingFrom (k + 1) cs ≠ [] := mt ascendingFrom_eq_nil_iff.mp hrest
          rw [if_neg hrest, List.map_cons, flush, if_pos hc, ← ih (k + 1)]
          exact fillGaps_of_lt hne fun t ht => le_of_mem_ascendingFrom ht
      · rw [if_neg hc, if_neg hc, fillGaps, ih, Nat.sub_self, List.replicate_zero, List.nil_append]
        have hflush : flush c = c := if_neg hc
        split_ifs with hrest
        · rw [hrest, List.map_nil, List.map_singleton, hflush]
        · rw [List.map_cons, hflush]

/-- **The coefficients of a normal form** are those it was made from,
without the zeros at the end. -/
theorem coefficients_ofDense (cs : List α) :
    (ofDense cs).coefficients = (cs.rdropWhile (Scalar.eq · Scalar.zero)).map flush := by
  rw [ofDense_eq, coefficients, List.reverse_reverse]
  exact fillGaps_ascendingFrom 0 cs

end NormalForm

end Univariate
