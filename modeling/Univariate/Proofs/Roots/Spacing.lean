import Univariate.Proofs.Roots.Symmetry

/-!
# How far apart the roots of the result are

Merging leaves clusters that are further apart than the tolerance.  Making
pairs conjugate then moves some of them, by half the tolerance at most: no
two roots come to lie on the same place, and roots on the axis or on
different sides of it stay apart.  Two roots on the same side need not, as
nothing looks at the distances again; they do if there is nothing to move.

* `Cluster.ne_of_moved`, `Cluster.lt_dist_of_moved` — two roots that are moved;
* `Cluster.cluster_apart` — the roots of the result;
* `Cluster.cluster_pairs_meet` — a pair that is moved next to another one.
-/

namespace Univariate

namespace Cluster

open scoped Exact

variable {ε : ℝ}

/-- Roots that stem from roots that are apart. -/
theorem pairwise_of_forall₂ {β γ : Type} {R : β → γ → Prop} {P : β → β → Prop}
    {Q : γ → γ → Prop} {l : List β} {l' : List γ} (h : List.Forall₂ R l l') (hl : l.Pairwise P)
    (himp : ∀ {a b a' b'}, R a a' → R b b' → P a b → Q a' b') : l'.Pairwise Q := by
  induction h with
  | nil => exact List.Pairwise.nil
  | @cons a a' l l' ha htail ih =>
      obtain ⟨hhead, hl⟩ := List.pairwise_cons.mp hl
      refine List.pairwise_cons.mpr ⟨fun b' hb' => ?_, ih hl⟩
      obtain ⟨i, hi⟩ := List.mem_iff_getElem?.mp hb'
      obtain ⟨b, hb, hR⟩ := exists_of_forall₂ htail hi
      exact himp ha hR (hhead b (List.mem_of_getElem? hb))

/-- Roots that are moved do not come to lie on the same place. -/
theorem ne_of_moved {e f r s : Root ℝ} (hr : Moved ε e r) (hs : Moved ε f s)
    (hfar : ε < dist e.value.toComplex f.value.toComplex) : r.value ≠ s.value := by
  intro heq
  have hnear := hr.near
  have hnear' := hs.near
  rw [Cplx.norm_sub, dist_comm] at hnear
  rw [Cplx.norm_sub, ← heq] at hnear'
  have htriangle := dist_triangle e.value.toComplex r.value.toComplex f.value.toComplex
  linarith

/-- Roots on the axis or on different sides of it stay apart. -/
theorem lt_dist_of_moved (hε : 0 ≤ ε) {e f r s : Root ℝ} (hr : Moved ε e r) (hs : Moved ε f s)
    (hfar : ε < dist e.value.toComplex f.value.toComplex)
    (hsides : r.value.im * s.value.im ≤ 0) :
    ε < dist r.value.toComplex s.value.toComplex := by
  by_contra hnear
  have hsign := sign_eq_of_dist_le hε hr.settled hs.settled (not_lt.mp hnear)
  have hre : r.value.im = 0 := by
    rcases lt_trichotomy r.value.im 0 with hneg | hzero | hpos
    · rw [sign_neg hneg, eq_comm, sign_eq_neg_one_iff] at hsign
      exact absurd hsides (not_le.mpr (mul_pos_of_neg_of_neg hneg hsign))
    · exact hzero
    · rw [sign_pos hpos, eq_comm, sign_eq_one_iff] at hsign
      exact absurd hsides (not_le.mpr (mul_pos hpos hsign))
  have him : s.value.im = 0 := by
    rw [← sign_eq_zero_iff, ← hsign, hre, sign_zero]
  rw [hr.onAxis (hr.im_eq_zero hre), hs.onAxis (hs.im_eq_zero him)] at hnear
  exact hnear hfar

/-- **How far apart the roots are.**  They are at different places; those on
the axis or on different sides of it are further apart than the tolerance;
and all are, if the clusters come with their conjugates. -/
theorem cluster_apart (hε : 0 ≤ ε) (found : List (Root ℝ)) :
    ((cluster ε found).Pairwise fun r s => r.value ≠ s.value ∧
        (r.value.im * s.value.im ≤ 0 → ε < (r.value - s.value).norm)) ∧
      (ConjClosed (merged ε found) →
        (cluster ε found).Pairwise fun r s => ε < (r.value - s.value).norm) := by
  have hmerged : (merged ε found).Pairwise fun e f =>
      ε < dist e.value.toComplex f.value.toComplex :=
    (List.pairwise_map.mp (apart_merged ε found)).imp fun h => (isNear_eq_false_iff ε _ _).mp h
  have hperm := (List.mergeSort_perm (pairConjugates ε (merged ε found)) rootLE).symm
  constructor
  · refine List.Pairwise.perm ?_ hperm ?_
    · refine pairwise_of_forall₂ (moved_merged hε found) hmerged fun hr hs hfar => ?_
      rw [Cplx.norm_sub]
      exact ⟨ne_of_moved hr hs hfar, lt_dist_of_moved hε hr hs hfar⟩
    · intro r s ⟨hne, hsides⟩
      rw [Cplx.norm_sub, dist_comm, ← Cplx.norm_sub, mul_comm]
      exact ⟨hne.symm, hsides⟩
  · intro hclosed
    simp only [Cplx.norm_sub]
    rw [pairConjugates_of_conjClosed hclosed (apart_merged ε found)] at hperm
    rw [cluster_of_conjClosed hclosed]
    exact hmerged.perm hperm fun h => by rwa [dist_comm]

/-- Two pairs that merge, and a double root. -/
theorem cluster_apart_five :
    let found : List (Root ℝ) :=
      [⟨⟨1, 2⟩, 1⟩, ⟨⟨3 / 2, -2⟩, 1⟩, ⟨⟨5, 0⟩, 2⟩, ⟨⟨3 / 2, 2⟩, 1⟩, ⟨⟨1, -2⟩, 1⟩]
    (0 : ℝ) ≤ 1 ∧ ConjClosed (merged 1 found) ∧
      (cluster 1 found).Pairwise fun r s => 1 < (r.value - s.value).norm := by
  intro found
  have huntied : Untied 1 (found.map fun c => snap 1 c.value) := by
    norm_num [found, Untied, snap_eq, isNear_eq]
  have hclosed : ConjClosed found := .of_reverse (by simp [found, Root.conj, Cplx.conj])
  have hmerged : ConjClosed (merged 1 found) := conjClosed_merged zero_le_one huntied hclosed
  exact ⟨zero_le_one, hmerged, (cluster_apart zero_le_one found).2 hmerged⟩

/-- The comparison without the square root. -/
theorem conjugateDistance_le_iff (hε : 0 ≤ ε) (r s : Root ℝ) :
    conjugateDistance r s ≤ ε ↔
      (s.value.re - r.value.re) ^ 2 + (-s.value.im - r.value.im) ^ 2 ≤ ε ^ 2 :=
  Cplx.norm_le_iff hε _

/-- Two pairs straight above each other, and one beside them.  Those above
each other are merged, on either side of the axis with the lower one; making
them conjugate takes them to the middle, and so near the third pair. -/
theorem cluster_pairs_meet :
    let found : List (Root ℝ) :=
      [⟨⟨0, -5⟩, 1⟩, ⟨⟨0, -3⟩, 1⟩, ⟨⟨0, 3⟩, 1⟩, ⟨⟨0, 5⟩, 1⟩, ⟨⟨2, -4⟩, 1⟩, ⟨⟨2, 4⟩, 1⟩]
    cluster (21 / 10) found = [⟨⟨0, -4⟩, 2⟩, ⟨⟨0, 4⟩, 2⟩, ⟨⟨2, -4⟩, 1⟩, ⟨⟨2, 4⟩, 1⟩] ∧
      ¬ (cluster (21 / 10) found).Pairwise fun r s => 21 / 10 < (r.value - s.value).norm := by
  intro found
  have hsnapped : snapped (21 / 10) found = found := by
    have hflat : (found.map fun c => { c with value := snap (21 / 10) c.value }) = found := by
      norm_num [found, snap_eq]
    rw [snapped, hflat]
    refine List.mergeSort_of_pairwise ?_
    norm_num [found, rootLE, Scalar.sortsLE]
  have hmerged : merged (21 / 10) found =
      [⟨⟨0, -5⟩, 2⟩, ⟨⟨0, 3⟩, 2⟩, ⟨⟨2, -4⟩, 1⟩, ⟨⟨2, 4⟩, 1⟩] := by
    rw [merged, hsnapped]
    norm_num [found, absorb, isNear_eq]
  have hpaired : pairConjugates (21 / 10) (merged (21 / 10) found) =
      [⟨⟨0, -4⟩, 2⟩, ⟨⟨0, 4⟩, 2⟩, ⟨⟨2, -4⟩, 1⟩, ⟨⟨2, 4⟩, 1⟩] := by
    rw [hmerged, pairConjugates]
    norm_num [List.range_succ, pairAt, partner?, firstMin?, conjugateDistance_le_iff]
  have hcluster : cluster (21 / 10) found =
      [⟨⟨0, -4⟩, 2⟩, ⟨⟨0, 4⟩, 2⟩, ⟨⟨2, -4⟩, 1⟩, ⟨⟨2, 4⟩, 1⟩] := by
    have hsorted : cluster (21 / 10) found =
        sortRoots (pairConjugates (21 / 10) (merged (21 / 10) found)) := rfl
    rw [hsorted, hpaired]
    refine List.mergeSort_of_pairwise ?_
    norm_num [rootLE, Scalar.sortsLE]
  refine ⟨hcluster, ?_⟩
  have hnear : ((⟨0, 4⟩ : Cplx ℝ) - ⟨2, 4⟩).norm ≤ 21 / 10 := by
    rw [Cplx.norm_le_iff (by norm_num)]
    change ((0 : ℝ) - 2) ^ 2 + (4 - 4) ^ 2 ≤ (21 / 10) ^ 2
    norm_num
  rw [hcluster]
  simp [not_lt.mpr hnear]

end Cluster

end Univariate
