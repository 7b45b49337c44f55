import Univariate.Proofs.Roots.Interchange

/-!
# Conjugate candidates have conjugate clusters

The roots of a real polynomial come with their conjugates.  Snapping and
merging treat a value as they treat its conjugate, and values on different
sides of the axis never meet; only the order of candidates straight above
each other is upside down on the other side.  Where that order does not
matter the clusters come with their conjugates too, and then making pairs
conjugate changes nothing.

* `ConjClosed` — with every root its conjugate;
* `Cluster.filter_foldl_absorb`, `Cluster.foldl_absorb_conj` — merging on one
  side of the axis, and on the other;
* `Cluster.conjClosed_merged` — conjugate clusters;
* `Cluster.pairConjugates_eq_self` — pairs that are conjugate already;
* `Cluster.conjClosed_cluster` — the result, and
  `Cluster.cluster_ties_asymmetric` one where the order does matter.
-/

namespace Univariate

open scoped Exact

section Conjugates

variable {α : Type} [Scalar α]

/-- The conjugate, as often. -/
def Root.conj (r : Root α) : Root α := { r with value := r.value.conj }

/-- With every root there is its conjugate, as often. -/
def ConjClosed (roots : List (Root α)) : Prop := (roots.map Root.conj).Perm roots

namespace ConjClosed

variable {roots roots' : List (Root α)}

/-- The order does not matter. -/
theorem of_perm (h : ConjClosed roots) (hperm : roots'.Perm roots) : ConjClosed roots' :=
  (hperm.map Root.conj).trans (List.Perm.trans h hperm.symm)

/-- It is enough that conjugating reverses the list. -/
theorem of_reverse (h : roots.map Root.conj = roots.reverse) : ConjClosed roots := by
  rw [ConjClosed, h]
  exact List.reverse_perm roots

/-- With a root there is its conjugate. -/
theorem mem_conj (h : ConjClosed roots) {r : Root α} (hr : r ∈ roots) : r.conj ∈ roots :=
  h.subset (List.mem_map_of_mem hr)

end ConjClosed

end Conjugates

namespace Cluster

variable {ε : ℝ} {w z : Cplx ℝ} {s : SignType} {found roots roots' emitted : List (Root ℝ)}

/-! ## The other side of the axis -/

/-- Moving onto the axis is symmetric. -/
theorem snap_conj (ε : ℝ) (z : Cplx ℝ) : snap ε z.conj = (snap ε z).conj := by
  rw [snap_eq, snap_eq]
  refine congrArg₂ Cplx.mk rfl ?_
  simp only [Cplx.conj, abs_neg]
  split_ifs <;> simp

/-- Conjugating keeps distances. -/
theorem dist_conj (w z : Cplx ℝ) :
    dist w.conj.toComplex z.conj.toComplex = dist w.toComplex z.toComplex := by
  rw [Cplx.toComplex_conj, Cplx.toComplex_conj, Complex.dist_conj_conj]

theorem isNear_conj (ε : ℝ) (w z : Cplx ℝ) : isNear ε w.conj z.conj = isNear ε w z := by
  rw [Bool.eq_iff_iff, isNear_iff, isNear_iff, dist_conj]

/-- Absorbing is symmetric. -/
theorem absorb_conj (ε : ℝ) (emitted : List (Root ℝ)) (c : Root ℝ) :
    (absorb ε emitted c).map Root.conj = absorb ε (emitted.map Root.conj) c.conj := by
  induction emitted with
  | nil => rfl
  | cons e emitted ih =>
      have hnear : isNear ε e.conj.value c.conj.value = isNear ε e.value c.value :=
        isNear_conj ε e.value c.value
      rw [List.map_cons, absorb, absorb, hnear]
      split_ifs
      · rfl
      · rw [List.map_cons, ih]

/-- **Merging the conjugates gives the conjugates**, in the same order. -/
theorem foldl_absorb_conj (ε : ℝ) (emitted roots : List (Root ℝ)) :
    (roots.foldl (absorb ε) emitted).map Root.conj =
      (roots.map Root.conj).foldl (absorb ε) (emitted.map Root.conj) := by
  induction roots generalizing emitted with
  | nil => rfl
  | cons c roots ih => rw [List.foldl_cons, ih, absorb_conj, List.map_cons, List.foldl_cons]

/-! ## One side of the axis -/

/-- The root is on this side of the axis, or on it. -/
noncomputable def onSide (s : SignType) (r : Root ℝ) : Bool := SignType.sign r.value.im = s

theorem onSide_iff {r : Root ℝ} : onSide s r = true ↔ SignType.sign r.value.im = s :=
  decide_eq_true_iff

/-- The conjugates of one side are on the other side. -/
theorem filter_conj (s : SignType) (roots : List (Root ℝ)) :
    (roots.map Root.conj).filter (onSide s) = (roots.filter (onSide (-s))).map Root.conj := by
  rw [List.filter_map]
  refine congrArg (List.map Root.conj) (List.filter_congr fun r _ => ?_)
  have hsign : SignType.sign r.conj.value.im = -SignType.sign r.value.im := Left.sign_neg _
  rw [Function.comp_apply, Bool.eq_iff_iff, onSide_iff, onSide_iff, hsign, neg_eq_iff_eq_neg]

/-- Lists with the same roots on each side have the same roots. -/
theorem perm_of_filter_onSide
    (h : ∀ s, (roots.filter (onSide s)).Perm (roots'.filter (onSide s))) : roots.Perm roots' := by
  classical
  refine List.perm_iff_count.mpr fun r => ?_
  have hr : onSide (SignType.sign r.value.im) r = true := onSide_iff.mpr rfl
  calc roots.count r
      = (roots.filter (onSide (SignType.sign r.value.im))).count r := (List.count_filter hr).symm
    _ = (roots'.filter (onSide (SignType.sign r.value.im))).count r := (h _).count_eq r
    _ = roots'.count r := List.count_filter hr

/-- A candidate meets those of its side only. -/
theorem filter_absorb (hε : 0 ≤ ε) (s : SignType) (hemitted : ∀ e ∈ emitted, Settled ε e.value)
    {c : Root ℝ} (hc : Settled ε c.value) :
    (absorb ε emitted c).filter (onSide s) =
      ([c].filter (onSide s)).foldl (absorb ε) (emitted.filter (onSide s)) := by
  induction emitted with
  | nil =>
      rw [absorb]
      by_cases hside : onSide s c = true
      · simp [hside, absorb]
      · simp [hside]
  | cons e emitted ih =>
      obtain ⟨he, hemitted⟩ := List.forall_mem_cons.mp hemitted
      specialize ih hemitted
      rw [absorb]
      by_cases hnear : isNear ε e.value c.value = true
      · have hsign := sign_eq_of_dist_le hε he hc ((isNear_iff ε _ _).mp hnear)
        by_cases hside : SignType.sign c.value.im = s
        · simp [onSide, hnear, hsign, hside, absorb]
        · simp [onSide, hnear, hsign, hside]
      · rw [if_neg hnear]
        by_cases hside : onSide s e = true
        · rw [List.filter_cons_of_pos hside, List.filter_cons_of_pos hside, ih]
          by_cases hside' : onSide s c = true
          · simp [hside', absorb, hnear]
          · simp [hside']
        · rw [List.filter_cons_of_neg hside, List.filter_cons_of_neg hside, ih]

/-- **Merging on one side** of the axis is merging the candidates of that
side. -/
theorem filter_foldl_absorb (hε : 0 ≤ ε) (s : SignType)
    (hemitted : ∀ e ∈ emitted, Settled ε e.value) (hroots : ∀ c ∈ roots, Settled ε c.value) :
    (roots.foldl (absorb ε) emitted).filter (onSide s) =
      (roots.filter (onSide s)).foldl (absorb ε) (emitted.filter (onSide s)) := by
  induction roots generalizing emitted with
  | nil => rfl
  | cons c roots ih =>
      obtain ⟨hc, hroots⟩ := List.forall_mem_cons.mp hroots
      have hsplit : c :: roots = [c] ++ roots := rfl
      rw [List.foldl_cons, ih (forall_value_absorb hemitted hc) hroots,
        filter_absorb hε s hemitted hc, hsplit, List.filter_append, List.foldl_append]

/-! ## Conjugate clusters -/

/-- The order is by real parts first. -/
theorem re_le_of_rootLE {a b : Root ℝ} (h : rootLE a b = true) : a.value.re ≤ b.value.re := by
  rw [rootLE_iff] at h
  simp only [Scalar.sortsLE, decide_eq_true_eq, not_le] at h
  rcases h with h | ⟨h, -⟩
  · exact h.le
  · exact h

/-- Candidates are merged in the order of their real parts. -/
theorem pairwise_snapped (ε : ℝ) (found : List (Root ℝ)) :
    (snapped ε found).Pairwise fun a b => a.value.re ≤ b.value.re :=
  (pairwise_sortRoots _).imp re_le_of_rootLE

/-- Moving onto the axis keeps a list closed. -/
theorem conjClosed_snapped (h : ConjClosed found) : ConjClosed (snapped ε found) := by
  refine ConjClosed.of_perm ?_ (List.mergeSort_perm _ _)
  have hcomm : (Root.conj ∘ fun c : Root ℝ => { c with value := snap ε c.value }) =
      (fun c : Root ℝ => { c with value := snap ε c.value }) ∘ Root.conj :=
    funext fun c => congrArg (Root.mk · c.multiplicity) (snap_conj ε c.value).symm
  rw [ConjClosed, List.map_map, hcomm, ← List.map_map]
  exact List.Perm.map _ h

/-- Fewer values have no more ties. -/
theorem Untied.mono {values values' : List (Cplx ℝ)} (h : Untied ε values)
    (hsub : ∀ z ∈ values', z ∈ values) : Untied ε values' :=
  fun a ha b hb c hc => h a (hsub a ha) b (hsub b hb) c (hsub c hc)

/-- The values that merging is about. -/
theorem mem_values_snapped :
    z ∈ (snapped ε found).map Root.value ↔ z ∈ found.map fun c => snap ε c.value := by
  have hperm := (List.mergeSort_perm (found.map fun c => { c with value := snap ε c.value })
    rootLE).map Root.value
  rw [snapped, sortRoots, hperm.mem_iff, List.map_map]
  rfl

/-- **Conjugate candidates have conjugate clusters**, if nothing is near two
different candidates straight above each other. -/
theorem conjClosed_merged (hε : 0 ≤ ε)
    (huntied : Untied ε (found.map fun c => snap ε c.value)) (hclosed : ConjClosed found) :
    ConjClosed (merged ε found) := by
  have hsnapped : ConjClosed (snapped ε found) := conjClosed_snapped hclosed
  refine perm_of_filter_onSide fun s => ?_
  have hside := hsnapped.filter (onSide s)
  have hempty : ∀ e ∈ ([] : List (Root ℝ)), Settled ε e.value := by simp
  rw [filter_conj] at hside
  rw [merged, filter_conj, filter_foldl_absorb hε _ hempty settled_snapped,
    filter_foldl_absorb hε _ hempty settled_snapped, foldl_absorb_conj]
  refine perm_foldl_absorb hε (huntied.mono fun z hz => ?_) hside ?_
    ((pairwise_snapped ε found).filter _)
  · obtain ⟨r, hr, rfl⟩ := List.mem_map.mp hz
    exact mem_values_snapped.mp (List.mem_map_of_mem (List.mem_of_mem_filter (hside.subset hr)))
  · exact List.pairwise_map.mpr ((pairwise_snapped ε found).filter _)

/-! ## Pairs that are conjugate already -/

/-- A root and its conjugate do not move when they are paired. -/
theorem mean_conj (r : Root ℝ) {s : Root ℝ} (h : s.value = r.value.conj) :
    mean r s = r.value := by
  refine congrArg₂ Cplx.mk ?_ ?_
  · simp [h, Cplx.conj]
  · simp [h, Cplx.conj]

/-- Pairs that are conjugate stay as they are. -/
theorem pairConjugates_eq_self
    (h : ∀ r ∈ roots, ∀ s ∈ roots, 0 < r.value.im → Fits ε r s → s.value = r.value.conj) :
    pairConjugates ε roots = roots := by
  have hrun : ∀ (places : List ℕ) (paired : List (Paired ℝ)), paired.map Prod.fst = roots →
      (places.foldl (pairAt ε) paired).map Prod.fst = roots := by
    intro places
    induction places with
    | nil => exact fun paired hpaired => hpaired
    | cons i places ih =>
        refine fun paired hpaired => ih _ ?_
        rcases pairAt_cases ε paired i with
          ⟨hsame, -⟩ | ⟨r, s, j, hi, habove, hj, hfits, -, hpair⟩
        · rwa [hsame]
        · have hr : r ∈ roots := hpaired ▸ List.mem_map_of_mem (List.mem_of_getElem? hi)
          have hs : s ∈ roots := hpaired ▸ List.mem_map_of_mem (List.mem_of_getElem? hj)
          have hconj := h r hr s hs (by simpa using habove) hfits
          have hfirst : (paired.set i (r, true)).map Prod.fst = paired.map Prod.fst :=
            map_set_of_eq hi rfl
          have hsecond : (paired.set j (s, true)).map Prod.fst = paired.map Prod.fst :=
            map_set_of_eq hj rfl
          rw [hpair, mean_conj r hconj, ← hconj, List.map_set, hfirst, ← List.map_set, hsecond,
            hpaired]
  rw [pairConjugates]
  exact hrun _ _ (by simp [Function.comp_def])

/-- Of roots that are apart, only the same are near. -/
theorem eq_of_apart (hapart : Apart ε (roots.map Root.value)) {r s : Root ℝ} (hr : r ∈ roots)
    (hs : s ∈ roots) (hnear : isNear ε r.value s.value = true) : r = s := by
  have : Std.Symm fun a b : Root ℝ => isNear ε a.value b.value = false :=
    ⟨fun a b h => by rwa [isNear_comm]⟩
  by_contra hne
  rw [(List.pairwise_map.mp hapart).forall hr hs hne] at hnear
  cases hnear

/-- So nothing becomes of roots that come with their conjugates and are
further apart than the tolerance. -/
theorem pairConjugates_of_conjClosed (hclosed : ConjClosed roots)
    (hapart : Apart ε (roots.map Root.value)) : pairConjugates ε roots = roots := by
  refine pairConjugates_eq_self fun r hr s hs _ hfits => ?_
  have hdist : dist s.value.toComplex r.conj.value.toComplex ≤ ε := by
    rw [← dist_conj]
    simpa [conjugateDistance_eq, Root.conj, Cplx.conj] using hfits.near
  rw [eq_of_apart hapart hs (hclosed.mem_conj hr) ((isNear_iff ε _ _).mpr hdist)]
  rfl

/-- **Where every root has its conjugate, pairing changes nothing.** -/
theorem cluster_of_conjClosed (h : ConjClosed (merged ε found)) :
    cluster ε found = sortRoots (merged ε found) :=
  congrArg sortRoots (pairConjugates_of_conjClosed h (apart_merged ε found))

/-- **Conjugate symmetry is kept**, whatever the order of the candidates, if
nothing is near two different candidates straight above each other. -/
theorem conjClosed_cluster (hε : 0 ≤ ε)
    (huntied : Untied ε (found.map fun c => snap ε c.value)) (hclosed : ConjClosed found) :
    ConjClosed (cluster ε found) := by
  have hmerged := conjClosed_merged hε huntied hclosed
  rw [cluster_of_conjClosed hmerged]
  exact hmerged.of_perm (List.mergeSort_perm _ _)

/-- Two pairs that merge, and a double root. -/
theorem conjClosed_cluster_five :
    let found : List (Root ℝ) :=
      [⟨⟨1, 2⟩, 1⟩, ⟨⟨3 / 2, -2⟩, 1⟩, ⟨⟨5, 0⟩, 2⟩, ⟨⟨3 / 2, 2⟩, 1⟩, ⟨⟨1, -2⟩, 1⟩]
    (0 : ℝ) ≤ 1 ∧ Untied 1 (found.map fun c => snap 1 c.value) ∧ ConjClosed found ∧
      ConjClosed (cluster 1 found) := by
  intro found
  have huntied : Untied 1 (found.map fun c => snap 1 c.value) := by
    norm_num [found, Untied, snap_eq, isNear_eq]
  have hclosed : ConjClosed found := .of_reverse (by simp [found, Root.conj, Cplx.conj])
  exact ⟨zero_le_one, huntied, hclosed, conjClosed_cluster zero_le_one huntied hclosed⟩

/-- Six roots of an even polynomial, straight above each other: below the
axis the middle one is merged with the lower one first, above it with the
lower one too, and what is left on either side has no partner. -/
theorem cluster_ties_asymmetric :
    let found : List (Root ℝ) :=
      [⟨⟨0, -21⟩, 1⟩, ⟨⟨0, -14⟩, 1⟩, ⟨⟨0, -9⟩, 1⟩, ⟨⟨0, 9⟩, 1⟩, ⟨⟨0, 14⟩, 1⟩, ⟨⟨0, 21⟩, 1⟩]
    ConjClosed found ∧
      cluster 7 found = [⟨⟨0, -21⟩, 2⟩, ⟨⟨0, -9⟩, 1⟩, ⟨⟨0, 9⟩, 2⟩, ⟨⟨0, 21⟩, 1⟩] ∧
      ¬ ∀ r ∈ cluster 7 found, r.conj ∈ cluster 7 found := by
  intro found
  have hclosed : ConjClosed found := .of_reverse (by simp [found, Root.conj, Cplx.conj])
  have hsnapped : snapped 7 found = found := by
    have hflat : (found.map fun c => { c with value := snap 7 c.value }) = found := by
      simp [found, snap_eq]
      norm_num
    rw [snapped, hflat]
    refine List.mergeSort_of_pairwise ?_
    simp [found, rootLE, Scalar.sortsLE]
    norm_num
  have hmerged : merged 7 found = [⟨⟨0, -21⟩, 2⟩, ⟨⟨0, -9⟩, 1⟩, ⟨⟨0, 9⟩, 2⟩, ⟨⟨0, 21⟩, 1⟩] := by
    rw [merged, hsnapped]
    norm_num [found, absorb, isNear_eq]
  have hpaired : pairConjugates 7 (merged 7 found) = merged 7 found := by
    have hnone : ∀ r ∈ merged 7 found, ∀ s ∈ merged 7 found, 0 < r.value.im → s.value.im < 0 →
        s.multiplicity = r.multiplicity → isNear 7 s.value.conj r.value = false := by
      rw [hmerged]
      norm_num [isNear_eq, Cplx.conj]
    refine pairConjugates_eq_self fun r hr s hs habove hfits => ?_
    have hfar := hnone r hr s hs habove (by simpa using hfits.below) hfits.multiplicity
    rw [isNear, ← conjugateDistance, hfits.near] at hfar
    cases hfar
  have hcluster : cluster 7 found =
      [⟨⟨0, -21⟩, 2⟩, ⟨⟨0, -9⟩, 1⟩, ⟨⟨0, 9⟩, 2⟩, ⟨⟨0, 21⟩, 1⟩] := by
    have hsorted : cluster 7 found = sortRoots (merged 7 found) := congrArg sortRoots hpaired
    rw [hsorted, hmerged]
    refine List.mergeSort_of_pairwise ?_
    simp [rootLE, Scalar.sortsLE]
    norm_num
  refine ⟨hclosed, hcluster, ?_⟩
  rw [hcluster]
  norm_num [Root.conj, Cplx.conj]

end Cluster

end Univariate
