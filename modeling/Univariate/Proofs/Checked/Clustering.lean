import Univariate.Proofs.Checked.Splitting

/-!
# Checked clustering

Making roots conjugate goes through the distinct roots by index, with a
mark for each one that has found its partner.  The roots and their marks
stand in two lists of one length, which are the two sides of the list that
`Cluster.pairAt` changes.

* `Checked.pairStep`, `Checked.pairConjugates`, `Checked.cluster` — the
  programs;
* `Checked.pairStep_eq` — one step;
* `Checked.cluster_eq` — what comes out of them.
-/

namespace Univariate

namespace Checked

open Cluster (Paired firstMin? firstMin?_map mem_of_firstMin? conjugateDistance)

variable {α : Type} [Analytic α]

/-- A root below the axis that can be the conjugate of `r`. -/
def canPair (ε : α) (r s : Root α) : Bool :=
  Scalar.lt s.value.im Scalar.zero && s.multiplicity == r.multiplicity &&
    Scalar.le (conjugateDistance r s) ε

/-- Looks for the partner of the root at place `i`. -/
def pairStep (ε : α) (state : List (Root α) × List Bool) (i : ℕ) :
    Checked (List (Root α) × List Bool) := do
  let (roots, paired) := state
  let r ← get roots i
  if (← get paired i) || Scalar.le r.value.im Scalar.zero then return (roots, paired)
  let partner ← nearestPlace roots.length fun j => do
    if ← get paired j then return none
    let s ← get roots j
    return if canPair ε r s then some (conjugateDistance r s) else none
  match partner with
  | none => return (roots, paired)
  | some j =>
    let s ← get roots j
    let re := (r.value.re + s.value.re) / Scalar.ofNat 2
    let im := (r.value.im - s.value.im) / Scalar.ofNat 2
    let roots ← put roots i { r with value := ⟨re, im⟩ }
    let roots ← put roots j { s with value := ⟨re, -im⟩ }
    let paired ← put paired i true
    let paired ← put paired j true
    return (roots, paired)

/-- Makes pairs of nearly conjugate roots exactly conjugate. -/
def pairConjugates (ε : α) (roots : List (Root α)) : Checked (List (Root α)) := do
  let (roots, _) ← (List.range roots.length).foldlM (pairStep ε)
    (roots, List.replicate roots.length false)
  return roots

/-- The distinct roots that candidates stand for. -/
def cluster (ε : α) (candidates : List (Root α)) : Checked (List (Root α)) := do
  let snapped := candidates.map fun r => { r with value := Cluster.snap ε r.value }
  let emitted := (Cluster.sortRoots snapped).foldl (Cluster.absorb ε) []
  return Cluster.sortRoots (← pairConjugates ε emitted)

/-- Roots and marks as two lists. -/
def sides (state : List (Paired α)) : List (Root α) × List Bool :=
  (state.map Prod.fst, state.map Prod.snd)

/-- The search in terms of places. -/
theorem partner?_eq (ε : α) (r : Root α) (state : List (Paired α)) (d : Paired α) :
    Cluster.partner? ε r state =
      firstMin? (fun j => conjugateDistance r (state.getD j d).1)
        ((List.range state.length).filter fun j =>
          !(state.getD j d).2 && canPair ε r (state.getD j d).1) := by
  have hplaces : state.zipIdx = (List.range state.length).map fun j => (state.getD j d, j) := by
    rw [← Multiplicity.zipIdx_map_range, map_getD_range]
  rw [Cluster.partner?, hplaces, List.filter_map, firstMin?_map, Option.map_map]
  exact Option.map_id'

/-- Pairing one entry keeps the number of entries. -/
theorem length_pairAt (ε : α) (state : List (Paired α)) (i : ℕ) :
    (Cluster.pairAt ε state i).length = state.length := by
  fun_cases Cluster.pairAt ε state i <;> simp

/-- **One step** changes the two sides as it changes the list. -/
theorem pairStep_eq (ε : α) {state : List (Paired α)} {i : ℕ} (hi : i < state.length) :
    pairStep ε (sides state) i = .ok (sides (Cluster.pairAt ε state i)) := by
  obtain ⟨r, paired, hget⟩ : ∃ r paired, state[i]? = some (r, paired) :=
    ⟨_, _, List.getElem?_eq_getElem hi⟩
  set d : Paired α := (r, paired)
  have hentry : state.getD i d = d := by rw [List.getD_eq_getElem?_getD, hget, Option.getD_some]
  have hroot {j : ℕ} (hj : j < state.length) := get_map Prod.fst hj d
  have hmark {j : ℕ} (hj : j < state.length) := get_map Prod.snd hj d
  have hpartner : nearestPlace (state.map Prod.fst).length (fun j => do
      if ← get (state.map Prod.snd) j then return none
      let s ← get (state.map Prod.fst) j
      return if canPair ε r s then some (conjugateDistance r s) else none) =
        .ok (Cluster.partner? ε r state) := by
    rw [partner?_eq ε r state d, List.length_map]
    refine nearestPlace_eq fun j hj => ?_
    rw [hmark hj, ok_bind]
    cases (state.getD j d).2
    · rw [hroot hj]
      rfl
    · rfl
  rw [pairStep, sides, Cluster.pairAt, hget]
  dsimp only
  rw [hroot hi, hentry, ok_bind, hmark hi, hentry, ok_bind]
  split_ifs with hidle
  · rfl
  · rw [hpartner, ok_bind]
    cases hfound : Cluster.partner? ε r state with
    | none => rfl
    | some j =>
        have hj : j < state.length := by
          rw [partner?_eq ε r state d] at hfound
          exact List.mem_range.mp (List.mem_of_mem_filter (mem_of_firstMin? hfound))
        have hs : state[j]? = some (state.getD j d) := by
          rw [List.getElem?_eq_getElem hj, List.getD_eq_getElem state d hj]
        dsimp only
        rw [hs, hroot hj, ok_bind, put_of_lt (by simpa using hi), ok_bind,
          put_of_lt (by simpa using hj), ok_bind, put_of_lt (by simpa using hi), ok_bind,
          put_of_lt (by simpa using hj), ok_bind, pure_eq]
        dsimp only
        rw [sides, List.map_set, List.map_set, List.map_set, List.map_set]

/-- **The checked pairing succeeds**, with the result of the pairing. -/
theorem pairConjugates_eq (ε : α) (roots : List (Root α)) :
    pairConjugates ε roots = .ok (Cluster.pairConjugates ε roots) := by
  have hsides : (roots, List.replicate roots.length false) =
      sides (roots.map fun r => (r, false)) := by
    simp [sides, Function.comp_def]
  have hloop : (List.range roots.length).foldlM (pairStep ε)
      (sides (roots.map fun r => (r, false))) = .ok (sides
        ((List.range roots.length).foldl (Cluster.pairAt ε) (roots.map fun r => (r, false)))) := by
    refine foldlM_view sides (fun state => state.length = roots.length)
      (fun i hi state hstate => ?_) (List.length_map _)
    exact ⟨pairStep_eq ε (hstate ▸ List.mem_range.mp hi), (length_pairAt ε state i).trans hstate⟩
  rw [pairConjugates, hsides, hloop]
  rfl

/-- **Clustering** makes no access that fails. -/
theorem cluster_eq (ε : α) (candidates : List (Root α)) :
    cluster ε candidates = .ok (Cluster.cluster ε candidates) := by
  rw [cluster, pairConjugates_eq]
  rfl

end Checked

end Univariate
