import Univariate.Proofs.Exact.Complex
import Univariate.Proofs.Roots.Clustering

/-!
# Making pairs conjugate

A root above the real axis looks for its partner among the roots below that
have none yet: of those with the same multiplicity whose conjugates are
within the tolerance, the one whose conjugate is nearest.  The root becomes
the mean of itself and of that conjugate, its partner the conjugate of the
mean.  Over the reals this takes no root further than half the tolerance,
none of them over the axis, and none on the axis anywhere.

* `Cluster.Fits`, `Cluster.partner?_eq_some`, `Cluster.partner?_eq_none` — the
  search;
* `Cluster.pairAt_cases` — all that one step can do;
* `Cluster.Moved`, `Cluster.moved_pairConjugates` — what becomes of each root.
-/

namespace Univariate

namespace Cluster

/-! ## The search -/

section Search

variable {α : Type}

/-- Only the keys decide. -/
theorem firstMin?_map [Scalar α] {β γ : Type} (key : γ → α) (f : β → γ) (bs : List β) :
    firstMin? key (bs.map f) = (firstMin? (key ∘ f) bs).map f := by
  induction bs with
  | nil => rfl
  | cons b bs ih =>
      rw [List.map_cons, firstMin?, ih, firstMin?]
      cases firstMin? (key ∘ f) bs with
      | none => rfl
      | some best =>
          dsimp only [Option.map_some, Function.comp_apply]
          split_ifs <;> rfl

/-- What is found is one of the list. -/
theorem mem_of_firstMin? [Scalar α] {β : Type} {key : β → α} {bs : List β} {b : β}
    (h : firstMin? key bs = some b) : b ∈ bs := by
  induction bs generalizing b with
  | nil => cases h
  | cons c cs ih =>
      rw [firstMin?] at h
      split at h
      · obtain rfl := Option.some.inj h
        exact List.mem_cons_self
      · next best hbest =>
        split_ifs at h
        · obtain rfl := Option.some.inj h
          exact List.mem_cons_self
        · obtain rfl := Option.some.inj h
          exact List.mem_cons_of_mem c (ih hbest)

theorem firstMin?_eq_none [Scalar α] {β : Type} {key : β → α} {bs : List β}
    (h : firstMin? key bs = none) : bs = [] := by
  cases bs with
  | nil => rfl
  | cons c cs =>
      rw [firstMin?] at h
      split at h
      · cases h
      · split_ifs at h

/-- What is found has the least key. -/
theorem sortsLE_of_firstMin? [Scalar α] [SortsTotally α] {β : Type} {key : β → α} {bs : List β}
    {b : β} (h : firstMin? key bs = some b) :
    ∀ c ∈ bs, Scalar.sortsLE (key b) (key c) = true := by
  have hrefl (c : β) : Scalar.sortsLE (key c) (key c) = true :=
    (SortsTotally.total (key c) (key c)).elim id id
  induction bs generalizing b with
  | nil => simp
  | cons d ds ih =>
      rw [firstMin?] at h
      split at h
      · next hnone =>
        obtain rfl := Option.some.inj h
        obtain rfl := firstMin?_eq_none hnone
        simpa using hrefl d
      · next best hbest =>
        split_ifs at h with hle
        · obtain rfl := Option.some.inj h
          refine List.forall_mem_cons.mpr ⟨hrefl d, fun c hc => ?_⟩
          exact SortsTotally.trans hle (ih hbest c hc)
        · obtain rfl := Option.some.inj h
          refine List.forall_mem_cons.mpr ⟨?_, ih hbest⟩
          exact (SortsTotally.total _ _).resolve_left hle

variable [Analytic α] {ε : α} {r : Root α} {roots : List (Paired α)}

/-- A root below the axis can be the conjugate of `r`. -/
structure Fits (ε : α) (r s : Root α) : Prop where
  below : Scalar.lt s.value.im Scalar.zero = true
  multiplicity : s.multiplicity = r.multiplicity
  near : Scalar.le (conjugateDistance r s) ε = true

/-- Those that the search is among. -/
theorem mem_filter_fits {s : Root α} {paired : Bool} {j : ℕ} :
    ((s, paired), j) ∈ roots.zipIdx.filter (fun ((s, paired), _) => !paired &&
        (Scalar.lt s.value.im Scalar.zero && s.multiplicity == r.multiplicity &&
          Scalar.le (conjugateDistance r s) ε)) ↔
      roots[j]? = some (s, false) ∧ paired = false ∧ Fits ε r s := by
  rw [List.mem_filter, List.mem_zipIdx_iff_getElem?]
  simp only [Bool.and_eq_true, Bool.not_eq_true', beq_iff_eq]
  constructor
  · rintro ⟨hj, rfl, ⟨hbelow, hmultiplicity⟩, hnear⟩
    exact ⟨hj, rfl, hbelow, hmultiplicity, hnear⟩
  · rintro ⟨hj, rfl, hbelow, hmultiplicity, hnear⟩
    exact ⟨hj, rfl, ⟨hbelow, hmultiplicity⟩, hnear⟩

/-- The partner that is found has none yet, fits, and is the nearest of
those. -/
theorem partner?_eq_some [SortsTotally α] {j : ℕ} (h : partner? ε r roots = some j) :
    ∃ s, roots[j]? = some (s, false) ∧ Fits ε r s ∧
      ∀ t, (t, false) ∈ roots → Fits ε r t →
        Scalar.sortsLE (conjugateDistance r s) (conjugateDistance r t) = true := by
  rw [partner?, Option.map_eq_some_iff] at h
  obtain ⟨⟨⟨s, paired⟩, k⟩, hmin, rfl⟩ := h
  obtain ⟨hk, -, hfits⟩ := mem_filter_fits.mp (mem_of_firstMin? hmin)
  refine ⟨s, hk, hfits, fun t ht hfits => ?_⟩
  obtain ⟨l, hl⟩ := List.mem_iff_getElem?.mp ht
  exact sortsLE_of_firstMin? hmin ((t, false), l) (mem_filter_fits.mpr ⟨hl, rfl, hfits⟩)

/-- None is found if none fits. -/
theorem partner?_eq_none (h : partner? ε r roots = none) {t : Root α} (ht : (t, false) ∈ roots) :
    ¬ Fits ε r t := by
  intro hfits
  obtain ⟨k, hk⟩ := List.mem_iff_getElem?.mp ht
  rw [partner?, Option.map_eq_none_iff] at h
  have hmem := mem_filter_fits.mpr ⟨hk, rfl, hfits⟩
  rw [firstMin?_eq_none h] at hmem
  cases hmem

/-! ## One step -/

/-- The mean of a root and of the conjugate of its partner. -/
def mean (r s : Root α) : Cplx α :=
  ⟨(r.value.re + s.value.re) / Scalar.ofNat 2, (r.value.im - s.value.im) / Scalar.ofNat 2⟩

/-- **All that one step can do**: nothing, because no root above the axis
looks for a partner at this place, or because no partner fits; or a root
and its partner become conjugate. -/
theorem pairAt_cases [SortsTotally α] (ε : α) (roots : List (Paired α)) (i : ℕ) :
    (pairAt ε roots i = roots ∧ ∀ r, roots[i]? = some (r, false) →
        Scalar.le r.value.im Scalar.zero = false →
          ∀ t, (t, false) ∈ roots → ¬ Fits ε r t) ∨
      ∃ r s j, roots[i]? = some (r, false) ∧ Scalar.le r.value.im Scalar.zero = false ∧
        roots[j]? = some (s, false) ∧ Fits ε r s ∧
        (∀ t, (t, false) ∈ roots → Fits ε r t →
          Scalar.sortsLE (conjugateDistance r s) (conjugateDistance r t) = true) ∧
        pairAt ε roots i = (roots.set i ({ r with value := mean r s }, true)).set j
          ({ s with value := (mean r s).conj }, true) := by
  rw [pairAt]
  split
  · next hi => exact Or.inl ⟨rfl, fun r hr => by simp [hi] at hr⟩
  · next r paired hi =>
    split_ifs with hidle
    · refine Or.inl ⟨rfl, fun s hs habove => ?_⟩
      rw [hi, Option.some.injEq, Prod.mk.injEq] at hs
      obtain ⟨rfl, rfl⟩ := hs
      simp [habove] at hidle
    · obtain ⟨rfl, habove⟩ : paired = false ∧ Scalar.le r.value.im Scalar.zero = false := by
        simpa using hidle
      cases hpartner : partner? ε r roots with
      | none =>
          refine Or.inl ⟨rfl, fun s hs _ t ht => ?_⟩
          obtain rfl : r = s := by simpa [hi] using hs
          exact partner?_eq_none hpartner ht
      | some j =>
          obtain ⟨s, hj, hfits, hnearest⟩ := partner?_eq_some hpartner
          refine Or.inr ⟨r, s, j, hi, habove, hj, hfits, hnearest, ?_⟩
          dsimp only
          rw [hj]
          rfl

end Search

/-! ## What becomes of a root -/

section Reals

open scoped Exact

instance : SortsTotally ℝ where
  total a b := by
    simp only [Scalar.sortsLE, decide_eq_true_eq]
    exact le_total a b
  trans := by
    intro a b c hab hbc
    simp only [Scalar.sortsLE, decide_eq_true_eq] at *
    exact hab.trans hbc

variable {ε : ℝ} {r s : Root ℝ} {roots : List (Root ℝ)}

/-- A value on the real axis or further from it than `ε`. -/
def Settled (ε : ℝ) (z : Cplx ℝ) : Prop := z.im = 0 ∨ ε < |z.im|

/-- What making pairs conjugate can make of a root. -/
structure Moved (ε : ℝ) (r s : Root ℝ) : Prop where
  multiplicity : s.multiplicity = r.multiplicity
  /-- It moves by half the tolerance at most, -/
  near : (s.value - r.value).norm ≤ ε / 2
  /-- stays on its side of the axis, -/
  side : SignType.sign s.value.im = SignType.sign r.value.im
  /-- as far from the axis as it has to be, -/
  settled : Settled ε s.value
  /-- and not at all if it is on the axis. -/
  onAxis : r.value.im = 0 → s = r

/-- A settled root may stay where it is. -/
theorem Moved.refl (hε : 0 ≤ ε) (h : Settled ε r.value) : Moved ε r r where
  multiplicity := rfl
  near := by
    rw [Cplx.norm_sub, dist_self]
    positivity
  side := rfl
  settled := h
  onAxis _ := rfl

/-- What is on the axis was there before. -/
theorem Moved.im_eq_zero (h : Moved ε r s) (hs : s.value.im = 0) : r.value.im = 0 := by
  rw [← sign_eq_zero_iff, ← h.side, hs, sign_zero]

/-- The distance of the conjugate of one root to the other. -/
theorem conjugateDistance_eq (r s : Root ℝ) :
    conjugateDistance r s = dist s.value.conj.toComplex r.value.toComplex :=
  Cplx.norm_sub _ _

/-- **The mean is the midpoint** of a root and the conjugate of its partner. -/
theorem mean_toComplex (r s : Root ℝ) :
    (mean r s).toComplex = midpoint ℝ r.value.toComplex s.value.conj.toComplex := by
  rw [midpoint_eq_smul_add]
  apply Complex.ext
  · simp [mean, Cplx.conj]
    ring
  · simp [mean, Cplx.conj]
    ring

/-- The root above the axis, and the one below it. -/
theorem moved_mean (hr : Settled ε r.value) (hs : Settled ε s.value) (habove : 0 < r.value.im)
    (hfits : Fits ε r s) :
    Moved ε r { r with value := mean r s } ∧ Moved ε s { s with value := (mean r s).conj } := by
  have hbelow : s.value.im < 0 := by simpa using hfits.below
  have hnear : dist s.value.conj.toComplex r.value.toComplex ≤ ε := by
    rw [← conjugateDistance_eq]
    simpa using hfits.near
  have hr' : ε < r.value.im := by simpa [Settled, habove.ne', abs_of_pos habove] using hr
  have hs' : ε < -s.value.im := by simpa [Settled, hbelow.ne, abs_of_neg hbelow] using hs
  have him : ε < (mean r s).im ∧ 0 < (mean r s).im := by
    simp only [mean, Exact.ofNat_eq, Nat.cast_ofNat]
    constructor <;> linarith
  have habs : |(mean r s).im| = (mean r s).im := abs_of_pos him.2
  constructor
  · refine ⟨rfl, ?_, ?_, Or.inr ?_, fun h => absurd h habove.ne'⟩
    · rw [Cplx.norm_sub, mean_toComplex, dist_midpoint_left, Real.norm_ofNat, dist_comm]
      linarith
    · rw [sign_pos him.2, sign_pos habove]
    · rw [habs]
      exact him.1
  · refine ⟨rfl, ?_, ?_, Or.inr ?_, fun h => absurd h hbelow.ne⟩
    · have hconj : dist (mean r s).conj.toComplex s.value.toComplex =
          dist (mean r s).toComplex s.value.conj.toComplex := by
        rw [Cplx.toComplex_conj, Cplx.toComplex_conj, Complex.dist_conj_comm]
      rw [Cplx.norm_sub, hconj, mean_toComplex, dist_midpoint_right, Real.norm_ofNat, dist_comm]
      linarith
    · have hneg : (mean r s).conj.im < 0 := neg_lt_zero.mpr him.2
      rw [sign_neg hneg, sign_neg hbelow]
    · have hneg : (mean r s).conj.im = -(mean r s).im := rfl
      rw [hneg, abs_neg, habs]
      exact him.1

/-- A place is overwritten with something that is also related. -/
theorem forall₂_set {β γ : Type} {R : β → γ → Prop} {l : List β} {l' : List γ}
    (h : List.Forall₂ R l l') {i : ℕ} {b : β} {c : γ} (hi : l[i]? = some b) (hR : R b c) :
    List.Forall₂ R l (l'.set i c) := by
  induction h generalizing i with
  | nil => cases hi
  | @cons b' c' l l' hR' htail ih =>
      cases i with
      | zero =>
          obtain rfl : b' = b := by simpa using hi
          exact .cons hR htail
      | succ i => exact .cons hR' (ih (by simpa using hi))

/-- What is at a place of one list has a partner in the other. -/
theorem exists_of_forall₂ {β γ : Type} {R : β → γ → Prop} {l : List β} {l' : List γ}
    (h : List.Forall₂ R l l') {i : ℕ} {c : γ} (hi : l'[i]? = some c) :
    ∃ b, l[i]? = some b ∧ R b c := by
  induction h generalizing i with
  | nil => cases hi
  | @cons b' c' l l' hR _ ih =>
      cases i with
      | zero =>
          obtain rfl : c' = c := by simpa using hi
          exact ⟨b', rfl, hR⟩
      | succ i => exact ih (by simpa using hi)

/-- What has become of a root so far: it is where it was unless it has
found its conjugate. -/
def Tracked (ε : ℝ) (r : Root ℝ) (s : Paired ℝ) : Prop :=
  Moved ε r s.1 ∧ (s.2 = false → s.1 = r)

/-- **One step of pairing** leaves a root in place unless it finds its
conjugate. -/
theorem tracked_pairAt (hroots : ∀ r ∈ roots, Settled ε r.value) {paired : List (Paired ℝ)}
    (h : List.Forall₂ (Tracked ε) roots paired) (i : ℕ) :
    List.Forall₂ (Tracked ε) roots (pairAt ε paired i) := by
  rcases pairAt_cases ε paired i with ⟨hsame, -⟩ | ⟨r, s, j, hi, habove, hj, hfits, -, hpair⟩
  · rwa [hsame]
  · obtain ⟨r', hi', -, hr⟩ := exists_of_forall₂ h hi
    obtain ⟨s', hj', -, hs⟩ := exists_of_forall₂ h hj
    obtain rfl : r = r' := hr rfl
    obtain rfl : s = s' := hs rfl
    obtain ⟨hupper, hlower⟩ := moved_mean (hroots r (List.mem_of_getElem? hi'))
      (hroots s (List.mem_of_getElem? hj')) (by simpa using habove) hfits
    rw [hpair]
    exact forall₂_set (forall₂_set h hi' ⟨hupper, by simp⟩) hj' ⟨hlower, by simp⟩

/-- **What becomes of each root** when pairs are made conjugate. -/
theorem moved_pairConjugates (hε : 0 ≤ ε) (hroots : ∀ r ∈ roots, Settled ε r.value) :
    List.Forall₂ (Moved ε) roots (pairConjugates ε roots) := by
  have hrun : ∀ (places : List ℕ) (paired : List (Paired ℝ)),
      List.Forall₂ (Tracked ε) roots paired →
        List.Forall₂ (Tracked ε) roots (places.foldl (pairAt ε) paired) := by
    intro places
    induction places with
    | nil => exact fun paired h => h
    | cons i places ih => exact fun paired h => ih _ (tracked_pairAt hroots h i)
  have hstart : List.Forall₂ (Tracked ε) roots (roots.map (·, false)) := by
    rw [List.forall₂_map_right_iff, List.forall₂_same]
    exact fun r hr => ⟨.refl hε (hroots r hr), fun _ => rfl⟩
  rw [pairConjugates, List.forall₂_map_right_iff]
  exact (hrun _ _ hstart).imp fun _ _ h => h.1

end Reals

end Cluster

end Univariate
