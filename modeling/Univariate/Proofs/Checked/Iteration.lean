import Univariate.Proofs.Checked.Access
import Univariate.Proofs.Dense.Polynomial
import Univariate.Proofs.Roots.Candidates

/-!
# Checked root iteration

All approximations stand in one list of fixed length, and a sweep goes
through it by index: it reads the one at its place and all others, and
writes the one that has moved back to where it was.  Those in front of the
index have moved already and those behind it have not, which is the state
that `Roots.sweep` keeps in two lists.

* `Checked.sweepStep`, `Checked.sweep`, `Checked.iterate`,
  `Checked.startPoints`, `Checked.find` — the programs;
* `Checked.sweep_go` — a sweep from any index on;
* `Checked.startPoints_eq`, `Checked.find_eq` — what comes out of them.
-/

namespace Univariate

namespace Checked

open Roots (Outcome)

variable {α : Type} [Analytic α]

/-! ## Sweeps -/

/-- One step for the approximation at place `k` of `n`. -/
def sweepStep (coefficients : Dense α) (n : ℕ) (state : List (Cplx α) × α) (k : ℕ) :
    Checked (List (Cplx α) × α) := do
  let (roots, largest) := state
  let z ← get roots k
  let others ← ((List.range n).filter (· != k)).mapM (get roots)
  match Roots.correction coefficients z others with
  | none => return (roots, largest)
  | some step =>
    let next := z - step
    let roots ← put roots k next
    return (roots, Scalar.max largest (step.norm / Scalar.max next.norm Scalar.one))

/-- One step for each of the `n` approximations. -/
def sweep (coefficients : Dense α) (n : ℕ) (roots : List (Cplx α)) :
    Checked (List (Cplx α) × α) :=
  (List.range n).foldlM (sweepStep coefficients n) (roots, Scalar.zero)

/-- Sweeps, at most so many of them. -/
def iterate (coefficients : Dense α) (n : ℕ) : ℕ → List (Cplx α) → Checked (Outcome α)
  | 0, roots => return .stalled roots
  | iterations + 1, roots => do
    let (next, largest) ← sweep coefficients n roots
    if !next.all Cplx.isFinite then return .diverged
    if Scalar.le largest Roots.stepTolerance then return .converged next
    iterate coefficients n iterations next

/-- The entries but the one behind `front`. -/
theorem mapM_get_others {β : Type} (front : List β) (x : β) (back : List β) :
    ((List.range (front ++ x :: back).length).filter (· != front.length)).mapM
      (get (front ++ x :: back)) = .ok (front ++ back) := by
  have hrange : List.range (front ++ x :: back).length =
      List.range' 0 front.length ++ front.length :: List.range' (front.length + 1) back.length := by
    rw [List.range_eq_range', List.length_append, List.length_cons, ← List.range'_append_1,
      Nat.zero_add, List.range'_succ]
  have hkept {s n : ℕ} (h : ∀ i, s ≤ i → i < s + n → i ≠ front.length) :
      (List.range' s n).filter (· != front.length) = List.range' s n := by
    refine List.filter_eq_self.mpr fun i hi => ?_
    obtain ⟨hs, hn⟩ := List.mem_range'_1.mp hi
    exact bne_iff_ne.mpr (h i hs hn)
  have hbelow := hkept (s := 0) (n := front.length) (by omega)
  have habove := hkept (s := front.length + 1) (n := back.length) (by omega)
  have hfront := mapM_get [] front (x :: back) (i := 0) rfl rfl
  have hback := mapM_get (front ++ [x]) back [] (i := front.length + 1) (by simp) rfl
  rw [List.nil_append] at hfront
  rw [List.append_nil, List.append_assoc, List.singleton_append] at hback
  rw [hrange, List.filter_append, List.filter_cons_of_neg (by simp), hbelow, habove,
    List.mapM_append, hfront, ok_bind, hback]
  rfl

/-- **A sweep** that has come to the approximations in `waiting`. -/
theorem sweep_go (coefficients : Dense α) (moved : List (Cplx α)) (largest : α)
    (waiting : List (Cplx α)) :
    (List.range' moved.length waiting.length).foldlM
        (sweepStep coefficients (moved.length + waiting.length)) (moved ++ waiting, largest) =
      .ok (Roots.sweep coefficients moved largest waiting) := by
  induction waiting generalizing moved largest with
  | nil =>
      rw [List.append_nil]
      rfl
  | cons z waiting ih =>
      have hothers := mapM_get_others moved z waiting
      rw [List.length_append] at hothers
      have hnext (next : Cplx α) (largest : α) :
          (List.range' (moved.length + 1) waiting.length).foldlM
              (sweepStep coefficients (moved.length + (z :: waiting).length))
              (moved ++ next :: waiting, largest) =
            .ok (Roots.sweep coefficients (moved ++ [next]) largest waiting) := by
        have h := ih (moved ++ [next]) largest
        rw [List.length_append, List.length_singleton, List.append_assoc, List.singleton_append,
          Nat.add_right_comm] at h
        exact h
      rw [List.length_cons, List.range'_succ, List.foldlM_cons, Roots.sweep]
      rw [sweepStep]
      simp only [get_append rfl, ok_bind, put_append rfl]
      rw [List.length_cons] at hothers hnext
      rw [hothers, ok_bind]
      cases Roots.correction coefficients z (moved ++ waiting) with
      | none => exact hnext z largest
      | some step => exact hnext _ _

/-- **The checked sweep succeeds**: it goes over as many places as there are
roots. -/
theorem sweep_eq (coefficients : Dense α) {n : ℕ} {roots : List (Cplx α)}
    (h : roots.length = n) :
    sweep coefficients n roots = .ok (Roots.sweep coefficients [] Scalar.zero roots) := by
  subst h
  have hgo := sweep_go coefficients [] Scalar.zero roots
  rw [List.length_nil, Nat.zero_add, List.nil_append, ← List.range_eq_range'] at hgo
  exact hgo

/-- **The iteration** keeps as many approximations as it started from. -/
theorem iterate_eq (coefficients : Dense α) {n : ℕ} (iterations : ℕ) {roots : List (Cplx α)}
    (h : roots.length = n) :
    iterate coefficients n iterations roots =
      .ok (Roots.iterate coefficients iterations roots) := by
  induction iterations generalizing roots with
  | zero => rfl
  | succ iterations ih =>
      have hlength : (Roots.sweep coefficients [] Scalar.zero roots).1.length = n := by
        rw [Roots.length_sweep, List.length_nil, Nat.zero_add, h]
      rw [iterate, Roots.iterate, sweep_eq coefficients h, ok_bind]
      dsimp only
      split_ifs
      · rfl
      · rfl
      · exact ih hlength

/-! ## The start -/

/-- The points that the iteration starts from. -/
def startPoints (coefficients : Dense α) : Checked (List (Cplx α)) := do
  let n ← minus coefficients.length 1
  let lead ← get coefficients n
  let radius ← (List.range' 1 n).foldlM (fun largest k => do
    let c ← get coefficients (← minus n k)
    return Scalar.max largest (Analytic.root (Scalar.abs (c / lead)) k)) Scalar.zero
  let radius := if Scalar.lt Scalar.zero radius then radius else Scalar.one
  return (List.range n).map fun k => Cplx.ofPolar radius (Roots.startAngle n k)

/-- The entries below the leading one, from the top downwards and
counted. -/
theorem zipIdx_reverse (lower : Dense α) (lead : α) :
    lower.reverse.zipIdx 1 = (List.range' 1 lower.length).map fun k =>
      ((lower ++ [lead]).getD (lower.length - k) Scalar.zero, k) := by
  refine List.ext_getElem (by simp) fun i hi _ => ?_
  rw [List.length_zipIdx, List.length_reverse] at hi
  have hlt : lower.length - (1 + i) < lower.length := by omega
  have hsub : lower.length - 1 - i = lower.length - (1 + i) := by omega
  simp [List.getElem_append_left hlt, hsub]

/-- **The start** reads no entry that is not there, unless there is none at
all. -/
theorem startPoints_eq {coefficients : Dense α} (h : coefficients ≠ []) :
    startPoints coefficients = .ok (Roots.startPoints coefficients) := by
  obtain ⟨lower, lead, rfl⟩ := (List.eq_nil_or_concat' coefficients).resolve_left h
  rw [startPoints, minus_length_concat, ok_bind, get_append rfl, ok_bind,
    foldlM_eq (f := fun largest k => Scalar.max largest (Analytic.root
      (Scalar.abs ((lower ++ [lead]).getD (lower.length - k) Scalar.zero / lead)) k))
      fun k hk largest => ?_]
  · rw [ok_bind, Roots.startPoints, Roots.startRadius, List.reverse_concat,
      Dense.degree_concat]
    dsimp only
    rw [zipIdx_reverse lower lead, List.foldl_map]
    rfl
  · have hk := (List.mem_range'_1.mp hk).2
    have hlt : lower.length - k < (lower ++ [lead]).length := by
      rw [List.length_append, List.length_singleton]
      omega
    rw [minus_of_le (by omega), ok_bind, get_getD hlt Scalar.zero]
    rfl

/-! ## All roots -/

/-- All roots of a polynomial with a first coefficient other than zero. -/
def findNonzero (coefficients : Dense α) (iterations : ℕ) : Checked (List (Cplx α)) :=
  match Dense.degree coefficients with
  | 0 => return []
  | 1 => do
    let constant ← get coefficients 0
    let slope ← get coefficients 1
    return [Cplx.ofReal (-constant / slope)]
  | below + 2 => do
    let n := below + 2
    match ← iterate coefficients n iterations (← startPoints coefficients) with
    | .diverged => throw (.refused (.unsolvable .nonFinite))
    | .converged roots => return roots
    | .stalled roots =>
      let bad := roots.countP fun z => !Roots.isResidualSmall coefficients z
      if 0 < bad then throw (.refused (.unsolvable (.notConverged bad n iterations)))
      return roots

/-- All roots of a polynomial, with repetition. -/
def find (coefficients : Dense α) (iterations : ℕ) : Checked (List (Cplx α)) := do
  let isZero (c : α) : Bool := Scalar.eq c Scalar.zero
  let zeros := (coefficients.takeWhile isZero).length
  let rest ← onwards coefficients zeros
  return List.replicate zeros Cplx.zero ++ (← findNonzero rest iterations)

/-- **The checked iteration** fails exactly as the iteration does. -/
theorem findNonzero_eq (coefficients : Dense α) (iterations : ℕ) :
    findNonzero coefficients iterations = refuse (Roots.findNonzero coefficients iterations) := by
  match coefficients with
  | [] => rfl
  | [_] => rfl
  | [_, _] => rfl
  | a :: b :: c :: rest =>
    have hdegree : Dense.degree (a :: b :: c :: rest) = rest.length + 2 := rfl
    have hstart := startPoints_eq (List.cons_ne_nil a (b :: c :: rest))
    have hrun := iterate_eq (a :: b :: c :: rest) iterations
      ((Roots.length_startPoints (a :: b :: c :: rest)).trans hdegree)
    unfold findNonzero Roots.findNonzero
    rw [hdegree]
    dsimp only
    rw [hstart, ok_bind, hrun, ok_bind]
    cases Roots.iterate (a :: b :: c :: rest) iterations
        (Roots.startPoints (a :: b :: c :: rest)) with
    | diverged => rfl
    | converged roots => rfl
    | stalled roots =>
        dsimp only
        split_ifs
        · rfl
        · rfl

/-- **The roots** of any coefficients are found, or refused. -/
theorem find_eq (coefficients : Dense α) (iterations : ℕ) :
    find coefficients iterations = refuse (Roots.find coefficients iterations) := by
  have hrest : onwards coefficients (coefficients.takeWhile (Scalar.eq · Scalar.zero)).length =
      .ok (coefficients.dropWhile (Scalar.eq · Scalar.zero)) := by
    have hdrop : ((coefficients.takeWhile (Scalar.eq · Scalar.zero)) ++
        coefficients.dropWhile (Scalar.eq · Scalar.zero)).drop
          (coefficients.takeWhile (Scalar.eq · Scalar.zero)).length =
        coefficients.dropWhile (Scalar.eq · Scalar.zero) := List.drop_left
    rw [List.takeWhile_append_dropWhile] at hdrop
    rw [onwards_of_le (List.takeWhile_prefix _).length_le, hdrop]
  rw [find, hrest, ok_bind, findNonzero_eq, Roots.find, refuse_bind, List.map_const']
  rfl

end Checked

end Univariate
