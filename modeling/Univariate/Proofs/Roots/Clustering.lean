import Mathlib
import Univariate.Roots.Cluster

/-!
# Clustering keeps the count

Clustering moves candidate roots, merges them and makes pairs of them
conjugate, all by comparing values that rounding may have blurred.  None
of this can lose or gain a root: a merge adds multiplicities, everything
else keeps them.  The order of the result needs no law of arithmetic
either, only that the values sorted by are totally ordered.

* `Counts` — so many roots, with their multiplicities;
* `values_absorb`, `sum_absorb`, `map_multiplicity_pairAt` — what one step
  does to the values and to the multiplicities;
* `sum_cluster`, `counts_cluster` — and what the whole does;
* `SortsTotally`, `pairwise_sortRoots` — the order of the result.
-/

namespace Univariate

/-- The roots are `n` with their multiplicities, each of them at least
one. -/
structure Counts {α : Type} (n : ℕ) (roots : List (Root α)) : Prop where
  sum : (roots.map Root.multiplicity).sum = n
  pos : ∀ r ∈ roots, 1 ≤ r.multiplicity

/-- The values to sort by are totally ordered. -/
class SortsTotally (α : Type) [Scalar α] : Prop where
  total : ∀ a b : α, Scalar.sortsLE a b = true ∨ Scalar.sortsLE b a = true
  trans : ∀ {a b c : α}, Scalar.sortsLE a b = true → Scalar.sortsLE b c = true →
    Scalar.sortsLE a c = true

instance : SortsTotally Float where
  total a b := by
    simp only [Scalar.sortsLE, decide_eq_true_eq]
    exact le_total _ _
  trans := by
    intro a b c hab hbc
    simp only [Scalar.sortsLE, decide_eq_true_eq] at *
    exact hab.trans hbc

namespace Counts

variable {α : Type} {n : ℕ} {roots others : List (Root α)}

/-- Only the multiplicities matter, in any order. -/
theorem of_perm (h : Counts n roots)
    (hperm : (others.map Root.multiplicity).Perm (roots.map Root.multiplicity)) :
    Counts n others := by
  refine ⟨hperm.sum_eq.trans h.sum, fun r hr => ?_⟩
  obtain ⟨s, hs, heq⟩ := List.mem_map.mp (hperm.subset (List.mem_map_of_mem hr))
  exact heq ▸ h.pos s hs

/-- Simple roots. -/
theorem simple (values : List (Cplx α)) : Counts values.length (values.map (⟨·, 1⟩)) where
  sum := by
    rw [List.map_map]
    simp [Function.comp_def]
  pos r hr := by
    obtain ⟨z, -, rfl⟩ := List.mem_map.mp hr
    exact le_rfl

end Counts

namespace Cluster

variable {α : Type}

/-! ## The order -/

section Order

variable [Scalar α]

/-- Real parts decide, and imaginary parts decide between equal ones. -/
theorem rootLE_iff (a b : Root α) :
    rootLE a b = true ↔ ¬ Scalar.sortsLE b.value.re a.value.re = true ∨
      Scalar.sortsLE a.value.re b.value.re = true ∧
        Scalar.sortsLE a.value.im b.value.im = true := by
  unfold rootLE
  split_ifs with h h' <;> simp_all

variable [SortsTotally α]

/-- Any two roots can be ordered. -/
theorem rootLE_total (a b : Root α) : (rootLE a b || rootLE b a) = true := by
  have hre := SortsTotally.total a.value.re b.value.re
  have him := SortsTotally.total a.value.im b.value.im
  rw [Bool.or_eq_true, rootLE_iff, rootLE_iff]
  tauto

/-- The order is transitive. -/
theorem rootLE_trans (a b c : Root α) (hab : rootLE a b = true) (hbc : rootLE b c = true) :
    rootLE a c = true := by
  rw [rootLE_iff] at hab hbc ⊢
  by_cases hca : Scalar.sortsLE c.value.re a.value.re = true
  · right
    rcases hab with hba | ⟨hab, himab⟩
    · have hab := (SortsTotally.total a.value.re b.value.re).resolve_right hba
      rcases hbc with hcb | ⟨hbc, -⟩
      · exact absurd (SortsTotally.trans hca hab) hcb
      · exact absurd (SortsTotally.trans hbc hca) hba
    · rcases hbc with hcb | ⟨hbc, himbc⟩
      · exact absurd (SortsTotally.trans hca hab) hcb
      · exact ⟨SortsTotally.trans hab hbc, SortsTotally.trans himab himbc⟩
  · exact Or.inl hca

/-- **The result of sorting ascends.** -/
theorem pairwise_sortRoots (roots : List (Root α)) :
    (sortRoots roots).Pairwise (rootLE · · = true) :=
  List.pairwise_mergeSort rootLE_trans rootLE_total roots

end Order

/-! ## Merging -/

section Merging

variable [Analytic α] {ε : α} {emitted : List (Root α)}

/-- The candidates as merging gets them: snapped, in ascending order. -/
def snapped (ε : α) (found : List (Root α)) : List (Root α) :=
  sortRoots (found.map fun c => { c with value := snap ε c.value })

/-- The clusters, before pairs are made conjugate. -/
def merged (ε : α) (found : List (Root α)) : List (Root α) :=
  (snapped ε found).foldl (absorb ε) []

/-- The values that merging has kept apart. -/
def Apart (ε : α) (values : List (Cplx α)) : Prop :=
  values.Pairwise fun w z => isNear ε w z = false

/-- What is absorbed is near something, and then no value is new, or it
comes last. -/
theorem values_absorb (ε : α) (emitted : List (Root α)) (c : Root α) :
    (∃ b ∈ emitted, isNear ε b.value c.value = true) ∧
        (absorb ε emitted c).map Root.value = emitted.map Root.value ∨
      (absorb ε emitted c).map Root.value = emitted.map Root.value ++ [c.value] ∧
        ∀ b ∈ emitted, isNear ε b.value c.value = false := by
  induction emitted with
  | nil => exact Or.inr ⟨rfl, by simp⟩
  | cons b emitted ih =>
      rw [absorb]
      by_cases hnear : isNear ε b.value c.value = true
      · rw [if_pos hnear]
        exact Or.inl ⟨⟨b, List.mem_cons_self, hnear⟩, rfl⟩
      · rw [if_neg hnear]
        rcases ih with ⟨⟨e, he, hec⟩, hsame⟩ | ⟨hlast, hfar⟩
        · refine Or.inl ⟨⟨e, List.mem_cons_of_mem b he, hec⟩, ?_⟩
          rw [List.map_cons, List.map_cons, hsame]
        · refine Or.inr ⟨by rw [List.map_cons, List.map_cons, hlast, List.cons_append], ?_⟩
          exact List.forall_mem_cons.mpr ⟨by simpa using hnear, hfar⟩

/-- What is true of the values stays true. -/
theorem forall_value_absorb {P : Cplx α → Prop} (hemitted : ∀ e ∈ emitted, P e.value) {c : Root α}
    (hc : P c.value) : ∀ e ∈ absorb ε emitted c, P e.value := by
  rw [← List.forall_mem_map] at hemitted ⊢
  rcases values_absorb ε emitted c with ⟨-, hsame⟩ | ⟨hlast, -⟩
  · rwa [hsame]
  · rw [hlast]
    intro z hz
    rcases List.mem_append.mp hz with hz | hz
    · exact hemitted z hz
    · rwa [List.mem_singleton.mp hz]

/-- What holds of every value that comes in holds of every value that comes
out. -/
theorem forall_value_foldl_absorb {P : Cplx α → Prop} {roots : List (Root α)}
    (hemitted : ∀ e ∈ emitted, P e.value) (hroots : ∀ c ∈ roots, P c.value) :
    ∀ e ∈ roots.foldl (absorb ε) emitted, P e.value := by
  induction roots generalizing emitted with
  | nil => exact hemitted
  | cons c roots ih =>
      obtain ⟨hc, hroots⟩ := List.forall_mem_cons.mp hroots
      exact ih (forall_value_absorb hemitted hc) hroots

/-- A merged root has the value of some candidate. -/
theorem forall_value_merged (P : Cplx α → Prop) {found : List (Root α)}
    (h : ∀ c ∈ snapped ε found, P c.value) : ∀ e ∈ merged ε found, P e.value :=
  forall_value_foldl_absorb (List.forall_mem_nil _) h

/-- One more candidate leaves the emitted values apart. -/
theorem apart_absorb (hapart : Apart ε (emitted.map Root.value)) (c : Root α) :
    Apart ε ((absorb ε emitted c).map Root.value) := by
  rcases values_absorb ε emitted c with ⟨-, hsame⟩ | ⟨hlast, hfar⟩
  · rwa [hsame]
  · rw [hlast, Apart, List.pairwise_append]
    refine ⟨hapart, List.pairwise_singleton _ _, ?_⟩
    simpa using hfar

/-- All candidates do. -/
theorem apart_foldl_absorb (hapart : Apart ε (emitted.map Root.value)) (roots : List (Root α)) :
    Apart ε ((roots.foldl (absorb ε) emitted).map Root.value) := by
  induction roots generalizing emitted with
  | nil => exact hapart
  | cons c roots ih => exact ih (apart_absorb hapart c)

/-- **Clusters are apart**, before pairs are made conjugate. -/
theorem apart_merged (ε : α) (found : List (Root α)) :
    Apart ε ((merged ε found).map Root.value) := by
  have hnil : Apart ε (([] : List (Root α)).map Root.value) := List.Pairwise.nil
  exact apart_foldl_absorb hnil _

end Merging

/-! ## The count -/

variable [Analytic α] {n : ℕ} {roots : List (Root α)}

/-- What is absorbed adds to the sum of the multiplicities. -/
theorem sum_absorb (ε : α) (emitted : List (Root α)) (r : Root α) :
    ((absorb ε emitted r).map Root.multiplicity).sum =
      (emitted.map Root.multiplicity).sum + r.multiplicity := by
  induction emitted with
  | nil => simp [absorb]
  | cons e emitted ih =>
      rw [absorb]
      split_ifs
      · simp only [List.map_cons, List.sum_cons]
        omega
      · simp only [List.map_cons, List.sum_cons, ih]
        omega

/-- **Merging keeps the sum of the multiplicities.** -/
theorem sum_foldl_absorb (ε : α) (emitted roots : List (Root α)) :
    ((roots.foldl (absorb ε) emitted).map Root.multiplicity).sum =
      (emitted.map Root.multiplicity).sum + (roots.map Root.multiplicity).sum := by
  induction roots generalizing emitted with
  | nil => rfl
  | cons r roots ih =>
      rw [List.foldl_cons, ih, sum_absorb, List.map_cons, List.sum_cons, Nat.add_assoc]

/-- A merge adds to a multiplicity. -/
theorem pos_absorb (ε : α) {emitted : List (Root α)} {r : Root α} (hr : 1 ≤ r.multiplicity)
    (hemitted : ∀ e ∈ emitted, 1 ≤ e.multiplicity) :
    ∀ e ∈ absorb ε emitted r, 1 ≤ e.multiplicity := by
  induction emitted with
  | nil => simpa [absorb] using hr
  | cons b emitted ih =>
      obtain ⟨hb, hemitted⟩ := List.forall_mem_cons.mp hemitted
      rw [absorb]
      split_ifs
      · exact List.forall_mem_cons.mpr ⟨hb.trans (Nat.le_add_right _ _), hemitted⟩
      · exact List.forall_mem_cons.mpr ⟨hb, ih hemitted⟩

/-- No multiplicity falls to zero. -/
theorem pos_foldl_absorb (ε : α) {emitted : List (Root α)}
    (hroots : ∀ r ∈ roots, 1 ≤ r.multiplicity)
    (hemitted : ∀ e ∈ emitted, 1 ≤ e.multiplicity) :
    ∀ e ∈ roots.foldl (absorb ε) emitted, 1 ≤ e.multiplicity := by
  induction roots generalizing emitted with
  | nil => exact hemitted
  | cons r roots ih =>
      obtain ⟨hr, hroots⟩ := List.forall_mem_cons.mp hroots
      exact ih hroots (pos_absorb ε hr hemitted)

/-- A place that is overwritten with an equal image. -/
theorem map_set_of_eq {β γ : Type} {f : β → γ} {l : List β} {i : ℕ} {b b' : β}
    (hb : l[i]? = some b) (heq : f b' = f b) : (l.set i b').map f = l.map f := by
  obtain ⟨hi, rfl⟩ := List.getElem?_eq_some_iff.mp hb
  have hi' : i < (l.map f).length := by simpa using hi
  have hself : (l.map f).set i (l.map f)[i] = l.map f := List.set_getElem_self hi'
  rwa [List.getElem_map, ← heq, ← List.map_set] at hself

/-- Making two roots conjugate leaves the multiplicities alone. -/
theorem map_multiplicity_pairAt (ε : α) (roots : List (Paired α)) (i : ℕ) :
    (pairAt ε roots i).map (·.1.multiplicity) = roots.map (·.1.multiplicity) := by
  fun_cases pairAt ε roots i with
  | case5 r paired hi _ j _ s other hj re im =>
      have hfirst : (roots.set i ({ r with value := ⟨re, im⟩ }, true)).map (·.1.multiplicity) =
          roots.map (·.1.multiplicity) := map_set_of_eq hi rfl
      rw [List.map_set, hfirst, ← List.map_set]
      exact map_set_of_eq hj rfl
  | _ => rfl

/-- **Making pairs conjugate keeps every multiplicity.** -/
theorem map_multiplicity_pairConjugates (ε : α) (roots : List (Root α)) :
    (pairConjugates ε roots).map Root.multiplicity = roots.map Root.multiplicity := by
  have hfold : ∀ (places : List ℕ) (paired : List (Paired α)),
      (places.foldl (pairAt ε) paired).map (·.1.multiplicity) = paired.map (·.1.multiplicity) := by
    intro places
    induction places with
    | nil => intro paired; rfl
    | cons i places ih =>
        intro paired
        rw [List.foldl_cons, ih, map_multiplicity_pairAt]
  rw [pairConjugates, List.map_map]
  exact (hfold _ _).trans (by simp)

/-- Snapping and sorting leave the multiplicities alone. -/
theorem map_multiplicity_snapped (ε : α) (found : List (Root α)) :
    ((snapped ε found).map Root.multiplicity).Perm (found.map Root.multiplicity) := by
  refine ((List.mergeSort_perm _ rootLE).map Root.multiplicity).trans ?_
  simp [Function.comp_def]

/-- What comes after merging leaves the multiplicities alone. -/
theorem map_multiplicity_cluster (ε : α) (found : List (Root α)) :
    ((cluster ε found).map Root.multiplicity).Perm
      ((merged ε found).map Root.multiplicity) := by
  rw [← map_multiplicity_pairConjugates ε (merged ε found)]
  exact (List.mergeSort_perm _ rootLE).map Root.multiplicity

/-- The multiplicities add up to what they did before. -/
theorem sum_cluster (ε : α) (found : List (Root α)) :
    ((cluster ε found).map Root.multiplicity).sum = (found.map Root.multiplicity).sum := by
  rw [(map_multiplicity_cluster ε found).sum_eq, merged, sum_foldl_absorb,
    (map_multiplicity_snapped ε found).sum_eq]
  exact Nat.zero_add _

/-- **Clustering keeps the count**, whatever the tolerance and the
candidates are. -/
theorem counts_cluster (ε : α) (h : Counts n roots) : Counts n (cluster ε roots) := by
  have hsnapped : Counts n (snapped ε roots) := h.of_perm (map_multiplicity_snapped ε roots)
  have hmerged : Counts n (merged ε roots) := by
    refine ⟨?_, pos_foldl_absorb ε hsnapped.pos (by simp)⟩
    rw [merged, sum_foldl_absorb, hsnapped.sum]
    exact Nat.zero_add n
  exact hmerged.of_perm (map_multiplicity_cluster ε roots)

end Cluster

end Univariate
