import Univariate.Proofs.Roots.Separation
import Univariate.Scalar.Float

/-!
# Recovering integer roots from candidates

Candidates that approximate the members of a list of integers, and do so
closely enough to tell them apart, come out of the clustering as these
integers: one root for each, with its multiplicity in the list, on the
real axis and in ascending order.

* `Approximates`, `Recovers` — candidates for a list, and what it takes to
  get the list back;
* `onAxis_snapped`, `weight_absorb` — onto the axis, and one step of merging;
* `Separates.recovers` — clustering, for candidates that are close enough;
* `recovers_exact_iff` — and for exact ones, which are recovered exactly if
  the tolerance is below all distances.
-/

namespace Univariate

open Binary64

/-- Candidates for a list of integers: each of them is near one, with an
imaginary part within the tolerance, and those near an integer have its
multiplicity between them. -/
structure Approximates (δ : ℚ) (ε : Float) (found : List (Root Float)) (rs : List ℤ) : Prop where
  near : ∀ c ∈ found, ∃ r ∈ rs, Near δ c.value r
  flat : ∀ c ∈ found, Scalar.le (Scalar.abs c.value.im) ε = true
  weight_eq : ∀ r ∈ rs, weight δ r found = rs.count r

/-- Roots that are, one after the other, the distinct members of a list of
integers in ascending order. -/
structure Recovers (δ : ℚ) (roots : List (Root Float)) (rs : List ℤ) : Prop where
  real : ∀ c ∈ roots, c.isReal = true
  ascending : roots.Pairwise fun a b => a.value.re < b.value.re
  distinct : List.Forall₂ (fun c r => Near δ c.value r ∧ c.multiplicity = rs.count r) roots
    (rs.toFinset.sort (· ≤ ·))

/-- A candidate on the real axis near one of some integers. -/
def OnAxis (δ : ℚ) (rs : List ℤ) (z : Cplx Float) : Prop :=
  z.im = Scalar.zero ∧ ∃ r ∈ rs, Near δ z r

variable {δ e : ℚ} {rs : List ℤ} {ε : Float} {c : Root Float}
  {found roots emitted : List (Root Float)}

/-! ## Weights -/

theorem weight_nil (δ : ℚ) (r : ℤ) : weight δ r [] = 0 := rfl

theorem weight_cons (δ : ℚ) (r : ℤ) (c : Root Float) (roots : List (Root Float)) :
    weight δ r (c :: roots) =
      (if Near δ c.value r then c.multiplicity else 0) + weight δ r roots :=
  List.sum_cons

/-- The weight does not depend on the order. -/
theorem weight_perm (δ : ℚ) (r : ℤ) (h : roots.Perm found) : weight δ r roots = weight δ r found :=
  (h.map _).sum_eq

/-- Something near the integer is there. -/
theorem exists_near_of_weight {r : ℤ} (h : weight δ r roots ≠ 0) :
    ∃ c ∈ roots, Near δ c.value r := by
  by_contra hnone
  refine h (List.sum_eq_zero fun n hn => ?_)
  obtain ⟨c, hc, rfl⟩ := List.mem_map.mp hn
  exact if_neg fun hnear => hnone ⟨c, hc, hnear⟩

/-- Of roots near different integers, one near `r` is all of the weight of
`r`. -/
theorem weight_eq_multiplicity {r : ℤ} (hc : c ∈ roots) (hr : Near δ c.value r)
    (hapart : roots.Pairwise fun a b => Near δ a.value r → ¬ Near δ b.value r) :
    weight δ r roots = c.multiplicity := by
  induction roots with
  | nil => cases hc
  | cons d roots ih =>
      obtain ⟨hhead, htail⟩ := List.pairwise_cons.mp hapart
      rw [weight_cons]
      rcases List.mem_cons.mp hc with rfl | hc
      · have hrest : weight δ r roots = 0 := by
          by_contra hne
          obtain ⟨b, hb, hnear⟩ := exists_near_of_weight hne
          exact hhead b hb hr hnear
        rw [if_pos hr, hrest, Nat.add_zero]
      · have hd : ¬ Near δ d.value r := fun hd => hhead c hc hd hr
        rw [if_neg hd, ih hc htail, Nat.zero_add]

/-! ## Onto the axis -/

namespace Cluster

/-- The real part stays. -/
theorem exactly_snap_re (ε : Float) {z : Cplx Float} {q : ℚ} (h : Exactly z.re q) :
    Exactly (snap ε z).re q := by
  unfold snap
  by_cases hq : q = 0
  · rw [if_pos (h.eq_zero_iff.mpr hq), hq]
    exact exactly_scalar_zero
  · rw [if_neg (mt h.eq_zero_iff.mp hq)]
    exact h

/-- Moving a value onto the axis keeps what its real part is near to. -/
theorem near_snap_iff (ε : Float) {z : Cplx Float} {r s : ℤ} (h : Near δ z s) :
    Near δ (snap ε z) r ↔ Near δ z r := by
  obtain ⟨v, hv, -⟩ := h
  have hsnap := exactly_snap_re ε hv
  constructor
  · rintro ⟨u, hu, hr⟩
    exact ⟨v, hv, hu.unique hsnap ▸ hr⟩
  · rintro ⟨u, hu, hr⟩
    exact ⟨v, hsnap, hu.unique hv ▸ hr⟩

/-- So it keeps all weights. -/
theorem weight_snapped (ε : Float) {r : ℤ} (h : ∀ c ∈ found, ∃ s ∈ rs, Near δ c.value s) :
    weight δ r (snapped ε found) = weight δ r found := by
  rw [snapped, sortRoots, weight_perm δ r (List.mergeSort_perm _ _), weight, List.map_map, weight]
  refine congrArg List.sum (List.map_congr_left fun c hc => ?_)
  obtain ⟨s, -, hs⟩ := h c hc
  exact if_congr (near_snap_iff ε hs) rfl rfl

/-- Then every candidate is on the axis. -/
theorem onAxis_snapped (h : Approximates δ ε found rs) :
    ∀ c ∈ snapped ε found, OnAxis δ rs c.value := by
  intro c hc
  obtain ⟨b, hb, rfl⟩ := List.mem_map.mp ((List.mergeSort_perm _ _).subset hc)
  obtain ⟨s, hs, hnear⟩ := h.near b hb
  exact ⟨if_pos (h.flat b hb), s, hs, (near_snap_iff ε hnear).mpr hnear⟩

/-! ## Merging -/

/-- **Merging keeps the weight of every integer.** -/
theorem weight_absorb (h : Separates δ e rs) (hspans : Spans rs) (hε : Exactly ε e)
    (hemitted : ∀ e ∈ emitted, OnAxis δ rs e.value) (hc : OnAxis δ rs c.value) {r : ℤ}
    (hr : r ∈ rs) : weight δ r (absorb ε emitted c) = weight δ r emitted + weight δ r [c] := by
  induction emitted with
  | nil => rw [absorb, weight_nil, Nat.zero_add]
  | cons b emitted ih =>
      obtain ⟨hb, hemitted⟩ := List.forall_mem_cons.mp hemitted
      rw [absorb]
      by_cases hnear : isNear ε b.value c.value = true
      · rw [if_pos hnear]
        obtain ⟨hb0, s, hs, hbs⟩ := hb
        obtain ⟨hc0, t, ht, hct⟩ := hc
        obtain rfl : s = t := (h.isNear_iff hspans hε hs ht hbs hct hb0 hc0).mp hnear
        have hboth : Near δ b.value r ↔ Near δ c.value r := by
          constructor
          · intro hbr
            rwa [h.unique hr hs hbr hbs]
          · intro hcr
            rwa [h.unique hr hs hcr hct]
        simp only [weight_cons, weight_nil, hboth]
        split_ifs <;> omega
      · rw [if_neg hnear, weight_cons, ih hemitted, weight_cons δ r b emitted, Nat.add_assoc]

/-- **Merging keeps the weight near every integer**, as no two of them share a
cluster. -/
theorem weight_foldl_absorb (h : Separates δ e rs) (hspans : Spans rs) (hε : Exactly ε e)
    (hemitted : ∀ e ∈ emitted, OnAxis δ rs e.value)
    (hroots : ∀ c ∈ roots, OnAxis δ rs c.value) {r : ℤ} (hr : r ∈ rs) :
    weight δ r (roots.foldl (absorb ε) emitted) = weight δ r emitted + weight δ r roots := by
  induction roots generalizing emitted with
  | nil => rfl
  | cons c roots ih =>
      obtain ⟨hc, hroots⟩ := List.forall_mem_cons.mp hroots
      rw [List.foldl_cons, ih (forall_value_absorb hemitted hc) hroots,
        weight_absorb h hspans hε hemitted hc hr]
      simp only [weight_cons, weight_nil]
      omega

/-! ## Conjugates -/

/-- On the axis nothing looks for its conjugate. -/
theorem pairConjugates_eq (ε : Float) (haxis : ∀ c ∈ roots, c.value.im = Scalar.zero) :
    pairConjugates ε roots = roots := by
  have hpair : ∀ i, pairAt ε (roots.map (·, false)) i = roots.map (·, false) := by
    intro i
    rw [pairAt, List.getElem?_map]
    cases hi : roots[i]? with
    | none => rfl
    | some c =>
        have him := haxis c (List.mem_of_getElem? hi)
        have hle : Scalar.le c.value.im Scalar.zero = true := by
          rw [him]
          exact (exactly_scalar_zero.le_iff exactly_scalar_zero).mpr le_rfl
        rw [Option.map_some]
        simp [hle]
  rw [pairConjugates, List.foldl_fixed' hpair, List.map_map]
  exact List.map_id roots

/-- Merged roots are on the axis. -/
theorem onAxis_merged (h : Approximates δ ε found rs) :
    ∀ c ∈ merged ε found, OnAxis δ rs c.value :=
  forall_value_merged (OnAxis δ rs) (onAxis_snapped h)

/-- On the axis there are no pairs to be made, and the roots are only sorted. -/
theorem cluster_eq (h : Approximates δ ε found rs) : cluster ε found = sortRoots (merged ε found) :=
  congrArg sortRoots (pairConjugates_eq ε fun c hc => (onAxis_merged h c hc).1)

/-- The roots that come out are on the axis. -/
theorem onAxis_cluster (h : Approximates δ ε found rs) :
    ∀ c ∈ cluster ε found, OnAxis δ rs c.value := by
  rw [cluster_eq h]
  exact fun c hc => onAxis_merged h c ((List.mergeSort_perm _ _).subset hc)

/-- A relation that holds of values apart holds between any two roots. -/
theorem pairwise_cluster {R : Cplx Float → Cplx Float → Prop} (h : Approximates δ ε found rs)
    (hsymm : ∀ {w z}, R w z → R z w)
    (hR : ∀ {w z}, OnAxis δ rs w → OnAxis δ rs z → isNear ε w z = false → R w z) :
    (cluster ε found).Pairwise fun a b => R a.value b.value := by
  have hmerged : (merged ε found).Pairwise fun a b => R a.value b.value := by
    refine (List.pairwise_map.mp (apart_merged ε found)).imp_of_mem ?_
    intro a b ha hb hfar
    exact hR (onAxis_merged h a ha) (onAxis_merged h b hb) hfar
  rw [cluster_eq h]
  exact hmerged.perm (List.mergeSort_perm _ _).symm hsymm

end Cluster

/-! ## Recovery -/

open Cluster

/-- Every integer is recovered. -/
theorem Recovers.exists_near (h : Recovers δ roots rs) {r : ℤ} (hr : r ∈ rs) :
    ∃ c ∈ roots, Near δ c.value r := by
  have hmem : r ∈ rs.toFinset.sort (· ≤ ·) := by
    rwa [Finset.mem_sort, List.mem_toFinset]
  have hdistinct := h.distinct
  clear h
  generalize rs.toFinset.sort (· ≤ ·) = ks at hmem hdistinct
  induction hdistinct with
  | nil => cases hmem
  | @cons c k roots ks hck _ ih =>
      rcases List.mem_cons.mp hmem with rfl | hmem
      · exact ⟨c, List.mem_cons_self, hck.1⟩
      · obtain ⟨b, hb, hnear⟩ := ih hmem
        exact ⟨b, List.mem_cons_of_mem c hb, hnear⟩

namespace Separates

/-- Different integers have different candidates, in the same order. -/
theorem lt_of_lt (h : Separates δ e rs) {r s : ℤ} (hr : r ∈ rs) (hs : s ∈ rs) {v u : ℚ}
    (hv : |v - r| ≤ δ) (hu : |u - s| ≤ δ) (hne : r ≠ s) (hle : v ≤ u) : r < s := by
  by_contra hge
  have hgap : (s : ℚ) + 1 ≤ r := by
    exact_mod_cast lt_of_le_of_ne (not_lt.mp hge) hne.symm
  have hδ := h.nonneg
  have hcovers := h.covers
  have hapart := h.apart r hr s hs hne
  have hshrink : |(r : ℚ) - s| * (1 - δ) ≤ |(r : ℚ) - s| :=
    mul_le_of_le_one_right (abs_nonneg _) (by linarith)
  rw [abs_of_pos (by linarith : (0 : ℚ) < r - s)] at hapart hshrink
  obtain ⟨hv, -⟩ := abs_le.mp hv
  obtain ⟨-, hu⟩ := abs_le.mp hu
  linarith

/-- Sorted roots near different integers ascend, and so do the integers. -/
theorem ascends (h : Separates δ e rs) {a b : Root Float} {r s : ℤ} (hr : r ∈ rs) (hs : s ∈ rs)
    (ha : Near δ a.value r) (hb : Near δ b.value s) (hne : r ≠ s) (hle : rootLE a b = true) :
    a.value.re < b.value.re ∧ r < s := by
  obtain ⟨v, hv, hvr⟩ := ha
  obtain ⟨u, hu, hus⟩ := hb
  have hvu : v < u := by
    rcases lt_trichotomy v u with hlt | rfl | hgt
    · exact hlt
    · exact absurd (h.unique hr hs ⟨v, hv, hvr⟩ ⟨v, hv, hus⟩) hne
    · -- Then the keys are the other way round.
      have hkey := hu.sortKey_lt hv hgt
      rw [rootLE_iff] at hle
      simp only [Scalar.sortsLE, decide_eq_true_eq] at hle
      omega
  exact ⟨(hv.lt_iff hu).mpr hvu, h.lt_of_lt hr hs hvr hus hne hvu.le⟩

/-- **The weight near an integer is how often it occurs.** -/
theorem weight_cluster (h : Separates δ e rs) (hspans : Spans rs) (hε : Exactly ε e)
    (happrox : Approximates δ ε found rs) {r : ℤ} (hr : r ∈ rs) :
    weight δ r (cluster ε found) = rs.count r := by
  rw [cluster_eq happrox, sortRoots, weight_perm δ r (List.mergeSort_perm _ _), merged,
    weight_foldl_absorb h hspans hε (by simp) (onAxis_snapped happrox) hr, weight_nil,
    Nat.zero_add, weight_snapped ε happrox.near, happrox.weight_eq r hr]

/-- Different clusters are near different integers. -/
theorem apart_cluster (h : Separates δ e rs) (hspans : Spans rs) (hε : Exactly ε e)
    (happrox : Approximates δ ε found rs) :
    (cluster ε found).Pairwise fun a b =>
      ∀ r ∈ rs, Near δ a.value r → ¬ Near δ b.value r := by
  refine pairwise_cluster (R := fun w z => ∀ r ∈ rs, Near δ w r → ¬ Near δ z r) happrox
    (fun hne r hr hz hw => hne r hr hw hz) ?_
  intro w z hw hz hfar r hr hwr hzr
  rw [(h.isNear_iff hspans hε hr hr hwr hzr hw.1 hz.1).mpr rfl] at hfar
  cases hfar

/-- Every integer has a cluster. -/
theorem exists_near_cluster (h : Separates δ e rs) (hspans : Spans rs) (hε : Exactly ε e)
    (happrox : Approximates δ ε found rs) {r : ℤ} (hr : r ∈ rs) :
    ∃ c ∈ cluster ε found, Near δ c.value r := by
  refine exists_near_of_weight ?_
  rw [h.weight_cluster hspans hε happrox hr]
  exact (List.count_pos_iff.mpr hr).ne'

/-- **The clusters ascend with the integers** that they are near. -/
theorem ascends_cluster (h : Separates δ e rs) (hspans : Spans rs) (hε : Exactly ε e)
    (happrox : Approximates δ ε found rs) {k : Root Float → ℤ}
    (hk : ∀ c ∈ cluster ε found, k c ∈ rs)
    (hnear : ∀ c ∈ cluster ε found, Near δ c.value (k c)) :
    (cluster ε found).Pairwise fun a b => a.value.re < b.value.re ∧ k a < k b := by
  refine ((h.apart_cluster hspans hε happrox).and (pairwise_sortRoots _)).imp_of_mem ?_
  rintro a b ha hb ⟨hne, hle⟩
  refine h.ascends (hk a ha) (hk b hb) (hnear a ha) (hnear b hb) ?_ hle
  intro heq
  exact hne (k a) (hk a ha) (hnear a ha) (heq ▸ hnear b hb)

/-- So they list the integers in order. -/
theorem sort_eq_map_cluster (h : Separates δ e rs) (hspans : Spans rs) (hε : Exactly ε e)
    (happrox : Approximates δ ε found rs) {k : Root Float → ℤ}
    (hk : ∀ c ∈ cluster ε found, k c ∈ rs)
    (hnear : ∀ c ∈ cluster ε found, Near δ c.value (k c)) :
    rs.toFinset.sort (· ≤ ·) = (cluster ε found).map k := by
  have hkeys : ((cluster ε found).map k).Pairwise (· < ·) :=
    List.pairwise_map.mpr ((h.ascends_cluster hspans hε happrox hk hnear).imp And.right)
  have hset : rs.toFinset = ((cluster ε found).map k).toFinset := by
    ext r
    rw [List.mem_toFinset, List.mem_toFinset]
    constructor
    · intro hr
      obtain ⟨c, hc, hcr⟩ := h.exists_near_cluster hspans hε happrox hr
      rw [h.unique hr (hk c hc) hcr (hnear c hc)]
      exact List.mem_map_of_mem hc
    · intro hr
      obtain ⟨c, hc, rfl⟩ := List.mem_map.mp hr
      exact hk c hc
  rw [hset, List.toFinset_sort (· ≤ ·) (hkeys.imp ne_of_lt)]
  exact hkeys.imp le_of_lt

/-- **Clustering recovers integer roots** from candidates that are close
enough to tell them apart. -/
theorem recovers (h : Separates δ e rs) (hspans : Spans rs) (hε : Exactly ε e)
    (happrox : Approximates δ ε found rs) : Recovers δ (cluster ε found) rs := by
  have haxis := onAxis_cluster happrox
  choose! k hk hnear using fun c hc => (haxis c hc).2
  refine ⟨?_, (h.ascends_cluster hspans hε happrox hk hnear).imp And.left, ?_⟩
  · intro c hc
    rw [Root.isReal, (haxis c hc).1]
    exact exactly_scalar_zero.eq_zero_iff.mpr rfl
  · rw [h.sort_eq_map_cluster hspans hε happrox hk hnear, List.forall₂_map_right_iff,
      List.forall₂_same]
    intro c hc
    refine ⟨hnear c hc, ?_⟩
    rw [← h.weight_cluster hspans hε happrox (hk c hc)]
    exact (weight_eq_multiplicity hc (hnear c hc)
      ((h.apart_cluster hspans hε happrox).imp fun hne => hne (k c) (hk c hc))).symm

end Separates

/-- An exact candidate is the integer. -/
theorem Near.exactly {z : Cplx Float} {r : ℤ} (h : Near 0 z r) : Exactly z.re r := by
  obtain ⟨v, hv, hvr⟩ := h
  rwa [← sub_eq_zero.mp (abs_nonpos_iff.mp hvr)]

/-- Exact candidates that merging keeps apart are further apart than the
tolerance. -/
theorem lt_of_isNear_eq_false (hspans : Spans rs) (hε : Exactly ε e) {w z : Cplx Float} {r s : ℤ}
    (hr : r ∈ rs) (hs : s ∈ rs) (hw : Near 0 w r) (hz : Near 0 z s) (hw0 : w.im = Scalar.zero)
    (hz0 : z.im = Scalar.zero) (hfar : isNear ε w z = false) : e < |(r : ℚ) - s| := by
  have hrep := representable_difference (hspans r hr s hs)
  have hexact := rounded_eq hrep
  have hfits : |rounded ((r : ℚ) - s)| < 2 ^ 1024 := by
    rw [hexact]
    exact hrep.abs_lt
  have hnear := isNear_iff_rounded hε hw.exactly hz.exactly hw0 hz0 hfits
  rw [hexact, hfar] at hnear
  by_contra hle
  cases hnear.mpr (not_lt.mp hle)

/-- **Exact candidates are recovered exactly if the tolerance is below the
distance of any two integers.** -/
theorem recovers_exact_iff (hspans : Spans rs) (hε : Exactly ε e) (he : 0 ≤ e)
    (happrox : Approximates 0 ε found rs) :
    Recovers 0 (cluster ε found) rs ↔ ∀ r ∈ rs, ∀ s ∈ rs, r ≠ s → e < |(r : ℚ) - s| := by
  constructor
  · intro hrecovers r hr s hs hne
    let Far (w z : Cplx Float) : Prop := ∀ r ∈ rs, ∀ s ∈ rs, Near 0 w r → Near 0 z s →
      e < |(r : ℚ) - s|
    have hsymm {w z : Cplx Float} (hwz : Far w z) : Far z w := by
      intro r hr s hs hz hw
      rw [abs_sub_comm]
      exact hwz s hs r hr hw hz
    have : Std.Symm fun a b : Root Float => Far a.value b.value := ⟨fun _ _ => hsymm⟩
    have hfar : (cluster ε found).Pairwise fun a b => Far a.value b.value := by
      refine pairwise_cluster happrox hsymm ?_
      intro w z hw hz hfar r hr s hs hwr hzs
      exact lt_of_isNear_eq_false hspans hε hr hs hwr hzs hw.1 hz.1 hfar
    obtain ⟨a, ha, har⟩ := hrecovers.exists_near hr
    obtain ⟨b, hb, hbs⟩ := hrecovers.exists_near hs
    have hab : a ≠ b := by
      rintro rfl
      exact hne (by exact_mod_cast har.exactly.unique hbs.exactly)
    exact hfar.forall ha hb hab r hr s hs har hbs
  · intro hgap
    refine Separates.recovers ⟨Or.inl rfl, by rwa [mul_zero], ?_⟩ hspans hε happrox
    intro r hr s hs hne
    rw [mul_zero, add_zero, sub_zero, mul_one]
    exact hgap r hr s hs hne

end Univariate
