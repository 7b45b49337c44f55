import Univariate.Proofs.Roots.Pairing

/-!
# How far clustering moves a root

Over the reals a candidate is moved three times at most.  Snapping puts it
on the axis if that is within the tolerance; merging puts it where the
first candidate near it was; making pairs conjugate takes a root off the
axis half a tolerance further.  A candidate on the axis and one off it are
never near each other once they are snapped, so only one of the first and
the last move happens to a root, and together they stay within twice the
tolerance.

* `Cluster.settled_snap`, `Cluster.sign_eq_of_dist_le` — snapped values near
  each other are on the same side of the axis;
* `Cluster.exists_merged_near`, `Cluster.exists_snapped_of_merged` — what
  merging does to the values;
* `Cluster.cluster_near_candidates` — the three moves together.
-/

namespace Univariate

namespace Cluster

open scoped Exact

variable {ε : ℝ} {w z : Cplx ℝ} {found roots emitted : List (Root ℝ)}

/-! ## Snapping -/

/-- Values close to the axis move onto it. -/
theorem snap_eq (ε : ℝ) (z : Cplx ℝ) : snap ε z = ⟨z.re, if |z.im| ≤ ε then 0 else z.im⟩ := by
  have hre : (if z.re = 0 then 0 else z.re) = z.re := by
    split_ifs with h
    · exact h.symm
    · rfl
  simp [snap, hre]

/-- Then a value is on the axis or clear of it. -/
theorem settled_snap (ε : ℝ) (z : Cplx ℝ) : Settled ε (snap ε z) := by
  rw [snap_eq]
  by_cases h : |z.im| ≤ ε
  · exact Or.inl (if_pos h)
  · refine Or.inr ?_
    dsimp only
    rw [if_neg h]
    exact not_le.mp h

/-- Only what comes to lie on the axis is moved. -/
theorem snap_of_im_ne_zero (h : (snap ε z).im ≠ 0) : snap ε z = z := by
  rw [snap_eq] at h ⊢
  have hfar : ¬ |z.im| ≤ ε := fun hle => h (if_pos hle)
  rw [if_neg hfar]

/-- A value moves by no more than the tolerance. -/
theorem dist_snap_le (hε : 0 ≤ ε) (z : Cplx ℝ) : dist (snap ε z).toComplex z.toComplex ≤ ε := by
  rw [snap_eq, dist_comm, Complex.dist_of_re_eq (by rfl), Cplx.toComplex_im, Cplx.toComplex_im]
  by_cases h : |z.im| ≤ ε
  · simp [h]
  · simpa [h] using hε

/-- All candidates are settled then. -/
theorem settled_snapped : ∀ c ∈ snapped ε found, Settled ε c.value := by
  intro c hc
  obtain ⟨b, -, rfl⟩ := List.mem_map.mp ((List.mergeSort_perm _ _).subset hc)
  exact settled_snap ε b.value

/-! ## Merging -/

/-- Being near is a matter of distance. -/
theorem isNear_iff (ε : ℝ) (w z : Cplx ℝ) :
    isNear ε w z = true ↔ dist w.toComplex z.toComplex ≤ ε := by
  rw [isNear, Exact.le_eq, decide_eq_true_iff, Cplx.norm_sub]

theorem isNear_eq_false_iff (ε : ℝ) (w z : Cplx ℝ) :
    isNear ε w z = false ↔ ε < dist w.toComplex z.toComplex := by
  rw [← Bool.not_eq_true, isNear_iff, not_le]

/-- Nearness without a root in it. -/
theorem isNear_eq (hε : 0 ≤ ε) (w z : Cplx ℝ) :
    isNear ε w z = decide ((w.re - z.re) ^ 2 + (w.im - z.im) ^ 2 ≤ ε ^ 2) := by
  rw [isNear, Exact.le_eq, Bool.eq_iff_iff, decide_eq_true_iff, decide_eq_true_iff,
    Cplx.norm_le_iff hε]
  rfl

/-- The imaginary parts are no further apart than the values. -/
theorem abs_im_sub_le_dist (w z : Cplx ℝ) : |w.im - z.im| ≤ dist w.toComplex z.toComplex := by
  rw [dist_eq_norm]
  exact Complex.abs_im_le_norm (w.toComplex - z.toComplex)

/-- **Settled values near each other** are on the same side of the axis. -/
theorem sign_eq_of_dist_le (hε : 0 ≤ ε) (hw : Settled ε w) (hz : Settled ε z)
    (hnear : dist w.toComplex z.toComplex ≤ ε) : SignType.sign w.im = SignType.sign z.im := by
  obtain ⟨hlow, hhigh⟩ := abs_le.mp ((abs_im_sub_le_dist w z).trans hnear)
  rcases hw with hw | hw
  · have hz' : z.im = 0 := by
      refine hz.resolve_right (not_lt.mpr (abs_le.mpr ?_))
      constructor <;> linarith
    rw [hw, hz']
  · rcases lt_abs.mp hw with hw | hw
    · rw [sign_pos (hε.trans_lt hw), sign_pos (by linarith)]
    · rw [sign_neg (by linarith), sign_neg (by linarith)]

/-- No value is lost. -/
theorem mem_values_foldl_absorb (ε : ℝ) {emitted : List (Root ℝ)} (roots : List (Root ℝ))
    (hz : z ∈ emitted.map Root.value) : z ∈ (roots.foldl (absorb ε) emitted).map Root.value := by
  induction roots generalizing emitted with
  | nil => exact hz
  | cons r roots ih =>
      refine ih ?_
      rcases values_absorb ε emitted r with ⟨-, hsame⟩ | ⟨hlast, -⟩
      · rwa [hsame]
      · rw [hlast]
        exact List.mem_append_left _ hz

/-- What is absorbed is near something from then on. -/
theorem exists_foldl_absorb_near (hε : 0 ≤ ε) (emitted : List (Root ℝ)) {c : Root ℝ}
    (hc : c ∈ roots) :
    ∃ e ∈ roots.foldl (absorb ε) emitted, dist e.value.toComplex c.value.toComplex ≤ ε := by
  induction roots generalizing emitted with
  | nil => cases hc
  | cons r roots ih =>
      rcases List.mem_cons.mp hc with rfl | hc
      · have hnear : ∃ z ∈ (absorb ε emitted c).map Root.value,
            dist z.toComplex c.value.toComplex ≤ ε := by
          rcases values_absorb ε emitted c with ⟨⟨b, hb, hbc⟩, hsame⟩ | ⟨hlast, -⟩
          · rw [hsame]
            exact ⟨b.value, List.mem_map_of_mem hb, (isNear_iff ε _ _).mp hbc⟩
          · rw [hlast]
            exact ⟨c.value, by simp, by rwa [dist_self]⟩
        obtain ⟨z, hz, hzc⟩ := hnear
        obtain ⟨e, he, rfl⟩ := List.mem_map.mp (mem_values_foldl_absorb ε roots hz)
        exact ⟨e, he, hzc⟩
      · exact ih (absorb ε emitted r) hc

/-- Every merged root has the value of a candidate, moved onto the axis if it
is close. -/
theorem exists_snapped_of_merged :
    ∀ e ∈ merged ε found, ∃ c ∈ found, e.value = snap ε c.value := by
  refine forall_value_merged (fun z => ∃ c ∈ found, z = snap ε c.value) fun c hc => ?_
  obtain ⟨b, hb, rfl⟩ := List.mem_map.mp ((List.mergeSort_perm _ _).subset hc)
  exact ⟨b, hb, rfl⟩

/-- **Every candidate**, moved onto the axis if it is close, has a merged root
within the tolerance. -/
theorem exists_merged_near (hε : 0 ≤ ε) {c : Root ℝ} (hc : c ∈ found) :
    ∃ e ∈ merged ε found, dist e.value.toComplex (snap ε c.value).toComplex ≤ ε :=
  exists_foldl_absorb_near hε []
    ((List.mergeSort_perm _ rootLE).symm.subset (List.mem_map_of_mem hc))

/-- Merged roots are settled. -/
theorem settled_merged : ∀ e ∈ merged ε found, Settled ε e.value :=
  forall_value_merged (Settled ε) settled_snapped

/-! ## All moves -/

/-- The roots of the result are the merged roots, moved. -/
theorem moved_merged (hε : 0 ≤ ε) (found : List (Root ℝ)) :
    List.Forall₂ (Moved ε) (merged ε found) (pairConjugates ε (merged ε found)) :=
  moved_pairConjugates hε settled_merged

/-- Every merged root is emitted, a little moved. -/
theorem exists_moved_of_merged (hε : 0 ≤ ε) {e : Root ℝ} (he : e ∈ merged ε found) :
    ∃ r ∈ cluster ε found, Moved ε e r := by
  obtain ⟨i, hi⟩ := List.mem_iff_getElem?.mp he
  obtain ⟨r, hr, hmoved⟩ := exists_of_forall₂ (moved_merged hε found).flip hi
  exact ⟨r, (List.mergeSort_perm _ _).symm.subset (List.mem_of_getElem? hr), hmoved⟩

/-- Nothing else is emitted. -/
theorem exists_merged_of_cluster (hε : 0 ≤ ε) {r : Root ℝ} (hr : r ∈ cluster ε found) :
    ∃ e ∈ merged ε found, Moved ε e r := by
  obtain ⟨i, hi⟩ := List.mem_iff_getElem?.mp ((List.mergeSort_perm _ _).subset hr)
  obtain ⟨e, he, hmoved⟩ := exists_of_forall₂ (moved_merged hε found) hi
  exact ⟨e, List.mem_of_getElem? he, hmoved⟩

/-- A candidate ends up within twice the tolerance: if it is snapped to the
axis, nothing moves it off again. -/
theorem dist_le_of_moves (hε : 0 ≤ ε) {c e r : Root ℝ}
    (hmerged : dist e.value.toComplex (snap ε c.value).toComplex ≤ ε) (he : Settled ε e.value)
    (hmoved : Moved ε e r) : dist r.value.toComplex c.value.toComplex ≤ 2 * ε := by
  have hsnap := dist_snap_le hε c.value
  have hnear := hmoved.near
  rw [Cplx.norm_sub] at hnear
  by_cases haxis : e.value.im = 0
  · rw [hmoved.onAxis haxis]
    calc dist e.value.toComplex c.value.toComplex
        ≤ dist e.value.toComplex (snap ε c.value).toComplex +
            dist (snap ε c.value).toComplex c.value.toComplex := dist_triangle _ _ _
      _ ≤ 2 * ε := by linarith
  · have hsign := sign_eq_of_dist_le hε he (settled_snap ε c.value) hmerged
    have hsame : snap ε c.value = c.value := by
      refine snap_of_im_ne_zero fun hzero => haxis ?_
      rwa [hzero, sign_zero, sign_eq_zero_iff] at hsign
    rw [hsame] at hmerged
    calc dist r.value.toComplex c.value.toComplex
        ≤ dist r.value.toComplex e.value.toComplex + dist e.value.toComplex c.value.toComplex :=
          dist_triangle _ _ _
      _ ≤ 2 * ε := by linarith

/-- A root is where a candidate is, up to snapping it or to making it
conjugate. -/
theorem dist_le_of_moved (hε : 0 ≤ ε) {c e r : Root ℝ} (hsnap : e.value = snap ε c.value)
    (hmoved : Moved ε e r) : dist r.value.toComplex c.value.toComplex ≤ ε := by
  by_cases haxis : e.value.im = 0
  · rw [hmoved.onAxis haxis, hsnap]
    exact dist_snap_le hε c.value
  · rw [hsnap] at haxis
    have hnear := hmoved.near
    rw [Cplx.norm_sub, hsnap, snap_of_im_ne_zero haxis] at hnear
    linarith

/-- **Clustering moves no root far and loses none.**  The multiplicities
add up to what they did before; every candidate is within twice the
tolerance of a root of the result; and every root of the result is within
the tolerance of a candidate. -/
theorem cluster_near_candidates (hε : 0 ≤ ε) (found : List (Root ℝ)) :
    ((cluster ε found).map Root.multiplicity).sum = (found.map Root.multiplicity).sum ∧
      (∀ c ∈ found, ∃ r ∈ cluster ε found, (r.value - c.value).norm ≤ 2 * ε) ∧
      ∀ r ∈ cluster ε found, ∃ c ∈ found, (r.value - c.value).norm ≤ ε := by
  refine ⟨sum_cluster ε found, fun c hc => ?_, fun r hr => ?_⟩
  · obtain ⟨e, he, hnear⟩ := exists_merged_near hε hc
    obtain ⟨r, hr, hmoved⟩ := exists_moved_of_merged hε he
    refine ⟨r, hr, ?_⟩
    rw [Cplx.norm_sub]
    exact dist_le_of_moves hε hnear (settled_merged e he) hmoved
  · obtain ⟨e, he, hmoved⟩ := exists_merged_of_cluster hε hr
    obtain ⟨c, hc, hsnap⟩ := exists_snapped_of_merged e he
    refine ⟨c, hc, ?_⟩
    rw [Cplx.norm_sub]
    exact dist_le_of_moved hε hsnap hmoved

/-- Three candidates of a real root and two of a pair, under a tolerance of
one. -/
theorem cluster_near_candidates_five :
    let found : List (Root ℝ) :=
      [⟨⟨2, 1⟩, 1⟩, ⟨⟨1, 0⟩, 2⟩, ⟨⟨1 / 2, -1⟩, 1⟩, ⟨⟨4, 3⟩, 1⟩, ⟨⟨9 / 2, -3⟩, 1⟩]
    (0 : ℝ) ≤ 1 ∧ ((cluster 1 found).map Root.multiplicity).sum = 6 ∧
      (∀ c ∈ found, ∃ r ∈ cluster 1 found, (r.value - c.value).norm ≤ 2 * 1) ∧
      ∀ r ∈ cluster 1 found, ∃ c ∈ found, (r.value - c.value).norm ≤ 1 :=
  ⟨zero_le_one, cluster_near_candidates zero_le_one _⟩

end Cluster

end Univariate
