import Univariate.Roots.Factorization

/-!
# Clustering candidate roots

Approximate roots that agree up to a tolerance are one root.  Candidates
near the real axis are put on it, candidates close to one already taken
add to its multiplicity, pairs of nearly conjugate roots are made exactly
conjugate, and the result ascends by real part, ties by imaginary part.

* `Cluster.snap` — onto the axis, and no negative zero;
* `Cluster.absorb` — into the first root within the tolerance;
* `Cluster.pairConjugates` — the mean of a root and of the conjugate
  of its partner;
* `Cluster.cluster` — all together.
-/

namespace Univariate

namespace Cluster

variable {α : Type}

section Order

variable [Scalar α]

/-- The first element with the least key. -/
@[specialize] def firstMin? {β : Type} (key : β → α) : List β → Option β
  | [] => none
  | b :: bs =>
    match firstMin? key bs with
    | none => some b
    | some best => if Scalar.sortsLE (key b) (key best) then some b else some best

/-- Ascending by real part, ties by imaginary part. -/
def rootLE (a b : Root α) : Bool :=
  if !Scalar.sortsLE b.value.re a.value.re then true
  else if !Scalar.sortsLE a.value.re b.value.re then false
  else Scalar.sortsLE a.value.im b.value.im

/-- In ascending order, equal ones as they came. -/
def sortRoots (roots : List (Root α)) : List (Root α) := roots.mergeSort rootLE

/-- A value near the real axis is put on it, and a negative zero becomes
positive. -/
def snap (ε : α) (z : Cplx α) : Cplx α :=
  { re := if Scalar.eq z.re Scalar.zero then Scalar.zero else z.re
    im := if Scalar.le (Scalar.abs z.im) ε then Scalar.zero else z.im }

end Order

variable [Analytic α]

/-- The distance of two values is at most `ε`. -/
def isNear (ε : α) (a b : Cplx α) : Bool := Scalar.le (a - b).norm ε

/-- Adds a root to the first one near it, or at the end. -/
def absorb (ε : α) : List (Root α) → Root α → List (Root α)
  | [], r => [r]
  | e :: emitted, r =>
    if isNear ε e.value r.value then
      { e with multiplicity := e.multiplicity + r.multiplicity } :: emitted
    else e :: absorb ε emitted r

/-- A root, and whether it has found its conjugate. -/
abbrev Paired (α : Type) := Root α × Bool

/-- The distance of a root from the conjugate of another one. -/
def conjugateDistance (r s : Root α) : α := (s.value.conj - r.value).norm

/-- The place of the nearest root below the axis that can be the
conjugate of `r`. -/
def partner? (ε : α) (r : Root α) (roots : List (Paired α)) : Option Nat :=
  let fits (s : Root α) : Bool :=
    Scalar.lt s.value.im Scalar.zero && s.multiplicity == r.multiplicity &&
      Scalar.le (conjugateDistance r s) ε
  let candidates := roots.zipIdx.filter fun ((s, paired), _) => !paired && fits s
  (firstMin? (fun c => conjugateDistance r c.1.1) candidates).map Prod.snd

/-- Looks for the partner of the root at place `i`, if that one lies
above the axis, and makes the two exactly conjugate. -/
def pairAt (ε : α) (roots : List (Paired α)) (i : Nat) : List (Paired α) :=
  match roots[i]? with
  | none => roots
  | some (r, paired) =>
    if paired || Scalar.le r.value.im Scalar.zero then roots
    else
      match partner? ε r roots with
      | none => roots
      | some j =>
        match roots[j]? with
        | none => roots
        | some (s, _) =>
          let re := (r.value.re + s.value.re) / Scalar.ofNat 2
          let im := (r.value.im - s.value.im) / Scalar.ofNat 2
          (roots.set i ({ r with value := ⟨re, im⟩ }, true)).set j
            ({ s with value := ⟨re, -im⟩ }, true)

/-- Makes pairs of nearly conjugate roots exactly conjugate. -/
def pairConjugates (ε : α) (roots : List (Root α)) : List (Root α) :=
  ((List.range roots.length).foldl (pairAt ε) (roots.map (·, false))).map Prod.fst

/-- The distinct roots that candidates stand for. -/
def cluster (ε : α) (candidates : List (Root α)) : List (Root α) :=
  let snapped := candidates.map fun r => { r with value := snap ε r.value }
  sortRoots (pairConjugates ε ((sortRoots snapped).foldl (absorb ε) []))

end Cluster

end Univariate
