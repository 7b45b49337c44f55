import Univariate.Proofs.Checked.Iteration
import Univariate.Proofs.Checked.Squarefree
import Univariate.Proofs.Checked.Taylor
import Univariate.Proofs.Roots.Pairing

/-!
# Checked multiplicities

The simple roots that stand in for an unconfirmed one are marked as taken
and stay in their list, so each search goes over all places and leaves out
the marked ones.  The places that are not marked are those of the list that
`Multiplicity.takeNearest` shortens.

* `Checked.nearestPlace`, `Checked.nearestPlace_eq` — the first place with
  the least key, among those that take part;
* `Checked.takeNearest`, `Checked.split`, `Checked.byFactors`,
  `Checked.candidates` — the programs;
* `Checked.candidates_eq` — what comes out of them.
-/

namespace Univariate

namespace Checked

open Cluster (firstMin? firstMin?_map mem_of_firstMin? firstMin?_eq_none)

variable {α : Type}

/-! ## The nearest place -/

/-- The first of `n` places with the least key.  A place without a key does
not take part. -/
def nearestPlace [Scalar α] (n : ℕ) (keyAt : ℕ → Checked (Option α)) : Checked (Option ℕ) := do
  let keyed ← (List.range n).filterMapM fun j => do return (← keyAt j).map (·, j)
  return (firstMin? Prod.fst keyed).map Prod.snd

theorem nearestPlace_eq [Scalar α] {n : ℕ} {keyAt : ℕ → Checked (Option α)} {fits : ℕ → Bool}
    {key : ℕ → α} (h : ∀ j < n, keyAt j = .ok (if fits j then some (key j) else none)) :
    nearestPlace n keyAt = .ok (firstMin? key ((List.range n).filter fits)) := by
  have hkeyed : (List.range n).filterMapM (fun j => do return (← keyAt j).map (·, j)) =
      .ok (((List.range n).filter fits).map fun j => (key j, j)) := by
    rw [← List.filterMap_eq_map, List.filterMap_filter]
    refine filterMapM_eq fun j hj => ?_
    rw [h j (List.mem_range.mp hj), ok_bind]
    split_ifs <;> rfl
  rw [nearestPlace, hkeyed, ok_bind, firstMin?_map, Option.map_map]
  exact congrArg Except.ok Option.map_id'

variable [Analytic α]

/-! ## Roots that stand in -/

/-- The place of the root that is nearest to `z` and not taken yet. -/
def nearestFree (direct : List (Cplx α)) (z : Cplx α) (taken : List Bool) :
    Checked (Option ℕ) :=
  nearestPlace direct.length fun j => do
    if ← get taken j then return none
    return some ((← get direct j) - z).norm

/-- Takes up to `m` of the roots that are nearest to `z` and not taken
yet. -/
def takeNearest (direct : List (Cplx α)) (z : Cplx α) :
    ℕ → List Bool → Checked (List (Cplx α) × List Bool)
  | 0, taken => return ([], taken)
  | m + 1, taken => do
    match ← nearestFree direct z taken with
    | none => takeNearest direct z m taken
    | some j =>
      let taken ← put taken j true
      let here ← get direct j
      let (others, taken) ← takeNearest direct z m taken
      return (here :: others, taken)

/-- Replaces repeated roots by the simple ones nearest to them. -/
def split (direct : List (Cplx α)) : List (Root α) → List Bool → Checked (List (Root α))
  | [], _ => return []
  | r :: repeated, taken => do
    let (found, taken) ← takeNearest direct r.value r.multiplicity taken
    return found.map (⟨·, 1⟩) ++ (← split direct repeated taken)

/-- The places that are not taken. -/
def freePlaces (n : ℕ) (taken : List Bool) : List ℕ :=
  (List.range n).filter fun j => !taken.getD j true

/-- What stands at these places. -/
def entriesAt (direct : List (Cplx α)) (places : List ℕ) : List (Cplx α) :=
  places.map (direct.getD · Cplx.zero)

/-- Taking a place takes it out of the free ones. -/
theorem freePlaces_set (n : ℕ) (taken : List Bool) {j i : ℕ}
    (hj : (freePlaces n taken)[i]? = some j) :
    freePlaces n (taken.set j true) = (freePlaces n taken).eraseIdx i := by
  have hnodup : (freePlaces n taken).Nodup := List.nodup_range.filter _
  obtain ⟨hi, hget⟩ := List.getElem?_eq_some_iff.mp hj
  have herase : (freePlaces n taken).eraseIdx i = (freePlaces n taken).filter (· != j) := by
    rw [← hnodup.erase_getElem i hi, hget, hnodup.erase_eq_filter]
  rw [herase, freePlaces, freePlaces, List.filter_filter]
  refine List.filter_congr fun k _ => ?_
  rw [List.getD_eq_getElem?_getD, List.getD_eq_getElem?_getD, List.getElem?_set]
  by_cases hk : j = k
  · subst hk
    by_cases hlt : j < taken.length <;> simp [hlt]
  · simp [hk, Ne.symm hk]

/-- At the beginning every entry is free. -/
theorem entriesAt_all (direct : List (Cplx α)) :
    entriesAt direct (freePlaces direct.length (List.replicate direct.length false)) = direct := by
  have hall : freePlaces direct.length (List.replicate direct.length false) =
      List.range direct.length := by
    refine List.filter_eq_self.mpr fun j hj => ?_
    simp [List.mem_range.mp hj]
  rw [hall]
  exact map_getD_range direct Cplx.zero

/-- The search finds the place of the root that a search without marks
finds. -/
theorem nearestFree_eq (direct : List (Cplx α)) (z : Cplx α) {taken : List Bool}
    (h : taken.length = direct.length) :
    ∃ place : Option (ℕ × ℕ), nearestFree direct z taken = .ok (place.map Prod.fst) ∧
      firstMin? (fun d : Cplx α × ℕ => (d.1 - z).norm)
          (entriesAt direct (freePlaces direct.length taken)).zipIdx =
        place.map (Prod.map (direct.getD · Cplx.zero) id) ∧
      (place = none → freePlaces direct.length taken = []) ∧
      ∀ j i, place = some (j, i) → (freePlaces direct.length taken)[i]? = some j := by
  have hnearest : nearestFree direct z taken = .ok (firstMin?
      (fun j => (direct.getD j Cplx.zero - z).norm) (freePlaces direct.length taken)) := by
    refine nearestPlace_eq fun j hj => ?_
    rw [get_getD (h ▸ hj) true, ok_bind]
    cases taken.getD j true
    · rw [get_getD hj Cplx.zero]
      rfl
    · rfl
  generalize freePlaces direct.length taken = free at hnearest ⊢
  -- Both searches are the one among the places with their own places.
  have hplaces := firstMin?_map (fun j => (direct.getD j Cplx.zero - z).norm) Prod.fst free.zipIdx
  have hentries := firstMin?_map (fun d : Cplx α × ℕ => (d.1 - z).norm)
    (Prod.map (direct.getD · Cplx.zero) id) free.zipIdx
  rw [List.zipIdx_map_fst] at hplaces
  rw [← List.zipIdx_map] at hentries
  refine ⟨_, hnearest.trans (congrArg Except.ok hplaces), hentries, fun hnone => ?_,
    fun j i hsome => ?_⟩
  · simpa using firstMin?_eq_none hnone
  · exact List.mk_mem_zipIdx_iff_getElem?.mp (mem_of_firstMin? hsome)

/-- **The roots that are taken** are those that a list without marks
loses. -/
theorem takeNearest_eq (direct : List (Cplx α)) (z : Cplx α) (m : ℕ) {taken : List Bool}
    (h : taken.length = direct.length) :
    ∃ taken', takeNearest direct z m taken = .ok ((Multiplicity.takeNearest z m
        (entriesAt direct (freePlaces direct.length taken))).1, taken') ∧
      taken'.length = direct.length ∧
      entriesAt direct (freePlaces direct.length taken') = (Multiplicity.takeNearest z m
        (entriesAt direct (freePlaces direct.length taken))).2 := by
  induction m generalizing taken with
  | zero => exact ⟨taken, rfl, h, rfl⟩
  | succ m ih =>
      obtain ⟨place, hnearest, hmodel, hnone, hsome⟩ := nearestFree_eq direct z h
      rw [takeNearest, hnearest, ok_bind, Multiplicity.takeNearest, hmodel]
      cases place with
      | none =>
          have hempty : Multiplicity.takeNearest z m [] = ([], []) := by cases m <;> rfl
          have hfree : entriesAt direct (freePlaces direct.length taken) = [] := by
            rw [hnone rfl]
            rfl
          have hrest := ih h
          rw [hfree, hempty] at hrest
          rw [hfree]
          exact hrest
      | some place =>
          obtain ⟨j, i⟩ := place
          have hj := hsome j i rfl
          have hlt : j < direct.length :=
            List.mem_range.mp (List.mem_of_mem_filter (List.mem_of_getElem? hj))
          have herase : entriesAt direct (freePlaces direct.length (taken.set j true)) =
              (entriesAt direct (freePlaces direct.length taken)).eraseIdx i := by
            rw [freePlaces_set direct.length taken hj]
            exact (List.eraseIdx_map ..).symm
          have hset : (taken.set j true).length = direct.length := (List.length_set ..).trans h
          obtain ⟨taken', htaken, hlength, hleft⟩ := ih hset
          rw [herase] at htaken hleft
          refine ⟨taken', ?_, hlength, hleft⟩
          dsimp only [Option.map_some]
          rw [put_of_lt (h ▸ hlt), ok_bind, get_getD hlt Cplx.zero, ok_bind, htaken]
          rfl

/-- **The checked split succeeds**: what it takes are entries at free places. -/
theorem split_eq (direct : List (Cplx α)) (repeated : List (Root α)) {taken : List Bool}
    (h : taken.length = direct.length) :
    split direct repeated taken = .ok (Multiplicity.split repeated
      (entriesAt direct (freePlaces direct.length taken))) := by
  induction repeated generalizing taken with
  | nil => rfl
  | cons r repeated ih =>
      obtain ⟨taken', htaken, hlength, hleft⟩ := takeNearest_eq direct r.value r.multiplicity h
      rw [split, htaken, ok_bind, Multiplicity.split]
      dsimp only
      rw [ih hlength, hleft]
      rfl

/-! ## Roots of factors -/

/-- Puts a root with the confirmed or with the unconfirmed ones. -/
def sortOut (coefficients : Dense α) (ε : α) (sorted : List (Root α) × List (Root α))
    (r : Root α) : Checked (List (Root α) × List (Root α)) := do
  let (confirmed, unconfirmed) := sorted
  let radius ← clusterRadius coefficients r.value r.multiplicity
  if 1 < r.multiplicity && Multiplicity.exceeds radius ε then
    return (confirmed, unconfirmed ++ [r])
  return (confirmed ++ [r], unconfirmed)

/-- The roots of all square-free factors, confirmed and unconfirmed. -/
def factorRoots (coefficients : Dense α) (ε : α) (iterations : ℕ)
    (factors : List (Squarefree.Factor α)) :
    Checked (List (Root α) × List (Root α)) :=
  factors.foldlM (fun sorted f => do
    let found ← find f.polynomial iterations
    (found.map (⟨·, f.multiplicity⟩)).foldlM (sortOut coefficients ε) sorted) ([], [])

/-- Roots by way of the square-free factors. -/
def byFactors (coefficients : Dense α) (ε : α) (iterations : ℕ) : Checked (List (Root α)) := do
  let factors ← decompose coefficients
  if Squarefree.totalDegree factors ≠ (← minus coefficients.length 1) then return []
  let (confirmed, unconfirmed) ← factorRoots coefficients ε iterations factors
  if unconfirmed.isEmpty then return confirmed
  let direct ← find coefficients iterations
  return confirmed ++ (← split direct unconfirmed (List.replicate direct.length false))

/-- Roots with multiplicities that add up to the degree.  An access that
fails in the first attempt is not made good by the second one. -/
def candidates (coefficients : Dense α) (degree : ℕ) (ε : α) (iterations : ℕ) :
    Checked (List (Root α)) :=
  let direct : Checked (List (Root α)) := do
    return (← find coefficients iterations).map (⟨·, 1⟩)
  match byFactors coefficients ε iterations with
  | .error (.fault fault) => .error (.fault fault)
  | .error (.refused _) => direct
  | .ok found =>
    if (found.map Root.multiplicity).foldr (· + ·) 0 = degree then .ok found else direct

/-- Confirmed and unconfirmed roots, after others. -/
def partitioned (coefficients : Dense α) (ε : α) (sorted : List (Root α) × List (Root α))
    (roots : List (Root α)) : List (Root α) × List (Root α) :=
  (sorted.1 ++ (roots.partition (Multiplicity.isUnconfirmed coefficients ε)).2,
    sorted.2 ++ (roots.partition (Multiplicity.isUnconfirmed coefficients ε)).1)

/-- Roots may be sorted out in two portions. -/
theorem partitioned_append (coefficients : Dense α) (ε : α)
    (sorted : List (Root α) × List (Root α)) (here others : List (Root α)) :
    partitioned coefficients ε (partitioned coefficients ε sorted here) others =
      partitioned coefficients ε sorted (here ++ others) := by
  simp [partitioned, List.partition_eq_filter_filter, List.filter_append, List.append_assoc]

/-- One root is sorted out. -/
theorem sortOut_eq (coefficients : Dense α) (ε : α) (sorted : List (Root α) × List (Root α))
    (r : Root α) :
    sortOut coefficients ε sorted r = .ok (partitioned coefficients ε sorted [r]) := by
  have htest : (decide (1 < r.multiplicity) && Multiplicity.exceeds
      (Multiplicity.clusterRadius coefficients r.value r.multiplicity) ε) =
      Multiplicity.isUnconfirmed coefficients ε r := rfl
  rw [sortOut, clusterRadius_eq, ok_bind, htest, partitioned, List.partition_eq_filter_filter]
  cases hr : Multiplicity.isUnconfirmed coefficients ε r <;> simp [hr]

/-- **The checked loop** sorts all roots out. -/
theorem sortAll_eq (coefficients : Dense α) (ε : α) (sorted : List (Root α) × List (Root α))
    (roots : List (Root α)) :
    roots.foldlM (sortOut coefficients ε) sorted =
      .ok (partitioned coefficients ε sorted roots) := by
  induction roots generalizing sorted with
  | nil => simp [partitioned]
  | cons r roots ih =>
      rw [List.foldlM_cons, sortOut_eq, ok_bind, ih, partitioned_append]
      rfl

/-- **The roots of the factors**, found and sorted out, fail exactly as
finding them does. -/
theorem factorRoots_eq (coefficients : Dense α) (ε : α) (iterations : ℕ)
    (factors : List (Squarefree.Factor α)) :
    factorRoots coefficients ε iterations factors =
      refuse (partitioned coefficients ε ([], []) <$>
        Multiplicity.factorRoots iterations factors) := by
  rw [factorRoots]
  generalize (([], []) : List (Root α) × List (Root α)) = sorted
  induction factors generalizing sorted with
  | nil => simp [Multiplicity.factorRoots, partitioned]
  | cons f factors ih =>
      rw [List.foldlM_cons, find_eq, Multiplicity.factorRoots]
      cases Roots.find f.polynomial iterations with
      | error e => rfl
      | ok here =>
          rw [refuse_ok, ok_bind, sortAll_eq, ok_bind, ih]
          cases Multiplicity.factorRoots iterations factors with
          | error e => rfl
          | ok others => exact congrArg Except.ok (partitioned_append ..)

/-! ## The candidates -/

variable {coefficients : Dense Float}

/-- **The way by factors** makes no access that fails, for a polynomial
that leads. -/
theorem byFactors_eq (h : coefficients.Leads) (ε : Float) (iterations : ℕ) :
    byFactors coefficients ε iterations =
      refuse (Multiplicity.byFactors coefficients ε iterations) := by
  have hlength : 1 ≤ coefficients.length := List.length_pos_iff.mpr h.ne_nil
  rw [byFactors, decompose_eq h, ok_bind, minus_of_le hlength, ok_bind, Multiplicity.byFactors,
    Dense.degree, factorRoots_eq]
  dsimp only
  split_ifs
  · rfl
  · cases Multiplicity.factorRoots iterations (Squarefree.decompose coefficients) with
    | error e => rfl
    | ok found =>
        have hsorted : partitioned coefficients ε ([], []) found =
            ((found.partition (Multiplicity.isUnconfirmed coefficients ε)).2,
              (found.partition (Multiplicity.isUnconfirmed coefficients ε)).1) := rfl
        rw [map_ok, refuse_ok, ok_bind, hsorted, ok_bind]
        dsimp only
        split_ifs
        · rfl
        · rw [find_eq]
          cases Roots.find coefficients iterations with
          | error e => rfl
          | ok direct =>
              rw [refuse_ok, ok_bind, split_eq direct _ List.length_replicate, entriesAt_all]
              rfl

/-- **The candidates** come out the same, for a polynomial that leads. -/
theorem candidates_eq (h : coefficients.Leads) (ε : Float) (iterations : ℕ) :
    candidates coefficients (Dense.degree coefficients) ε iterations =
      refuse (Multiplicity.candidates coefficients ε iterations) := by
  have hdirect : (do return (← find coefficients iterations).map (⟨·, 1⟩) :
      Checked (List (Root Float))) =
      refuse (do return (← Roots.find coefficients iterations).map (⟨·, 1⟩)) := by
    rw [find_eq, refuse_bind]
    rfl
  rw [candidates, hdirect, byFactors_eq h, Multiplicity.candidates]
  cases Multiplicity.byFactors coefficients ε iterations with
  | error e => rfl
  | ok found =>
      dsimp only [refuse_ok]
      split_ifs <;> rfl

end Checked

end Univariate
