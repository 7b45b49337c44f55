import Univariate.Roots.Cluster
import Univariate.Roots.Iteration
import Univariate.Squarefree

/-!
# Multiplicities

The roots of each square-free factor are simple and carry the factor's
multiplicity.  The decomposition merges roots at its own tolerance,
though, so a repeated root is confirmed only if the roots of the whole
polynomial around it lie within `ε`; an unconfirmed one is replaced by
the nearest roots of the polynomial itself.

* `Multiplicity.taylor` — the coefficients of a polynomial around a
  point;
* `Multiplicity.clusterRadius` — a distance within which so many roots
  lie, read off those coefficients;
* `Multiplicity.split` — repeated roots replaced by nearby simple ones;
* `Multiplicity.candidates` — roots with multiplicities that add up to
  the degree.
-/

namespace Univariate

namespace Multiplicity

variable {α : Type}

/-- Rounding errors that shifting a polynomial makes, in units in the
last place per coefficient. -/
def taylorUlps : Nat := 16

section Shift

variable [Scalar α]

/-- Division by `x - r`: the quotient and the remainder, which is the
value at `r`. -/
@[specialize] def divLinear (r : Cplx α) : List (Cplx α) → List (Cplx α) × Cplx α
  | [] => ([], Cplx.zero)
  | [top] => ([], top)
  | c :: cs =>
    let (quotient, value) := divLinear r cs
    (value :: quotient, value * r + c)

/-- The first `count` coefficients of a polynomial around `r`: each is
the remainder of one more division. -/
@[specialize] def taylor (r : Cplx α) : Nat → List (Cplx α) → List (Cplx α)
  | 0, _ => []
  | count + 1, p =>
    let (quotient, value) := divLinear r p
    value :: taylor r count quotient

end Shift

variable [Analytic α]

/-- A distance from `r` within which `m` roots lie, and `none` if the
coefficient of degree `m` around `r` is lost in rounding.  Lower
coefficients below their rounding error count as zero. -/
@[specialize] def clusterRadius (coefficients : Dense α) (r : Cplx α) (m : Nat) :
    Option α :=
  let shifted := taylor r (m + 1) (coefficients.map Cplx.ofReal)
  let bounds := taylor (Cplx.ofReal r.norm) (m + 1)
    (coefficients.map fun c => Cplx.ofReal (Scalar.abs c))
  let rounding :=
    Scalar.ofNat taylorUlps * Scalar.ofNat coefficients.length * Scalar.epsilon
  let sizes := shifted.map Cplx.norm
  let allowances := bounds.map fun b => rounding * b.re
  match sizes.drop m, allowances.drop m with
  | lead :: _, allowance :: _ =>
    if Scalar.le lead allowance then none
    else
      let lower := ((sizes.take m).zip (allowances.take m)).zipIdx
      some <| lower.foldl (fun largest ((size, allowance), k) =>
        let rest := Scalar.max (size - allowance) Scalar.zero
        Scalar.max largest (Scalar.ofNat 2 * Analytic.root (rest / lead) (m - k)))
        Scalar.zero
  | _, _ => none

/-- A radius is larger than `ε`.  The missing radius is larger than
everything but infinity. -/
def exceeds (radius : Option α) (ε : α) : Bool :=
  match radius with
  | some r => Scalar.lt ε r
  | none => Scalar.isFinite ε || Scalar.lt ε Scalar.zero

/-- Takes up to `m` of the roots in `free` that are nearest to `z`, one
after the other: those taken, and those left. -/
@[specialize] def takeNearest (z : Cplx α) :
    Nat → List (Cplx α) → List (Cplx α) × List (Cplx α)
  | 0, free => ([], free)
  | m + 1, free =>
    match Cluster.firstMin? (fun d : Cplx α × Nat => (d.1 - z).norm) free.zipIdx with
    | none => ([], free)
    | some (nearest, i) =>
      let (taken, left) := takeNearest z m (free.eraseIdx i)
      (nearest :: taken, left)

/-- Replaces repeated roots by the simple ones nearest to them, none of
which is used twice. -/
@[specialize] def split : List (Root α) → List (Cplx α) → List (Root α)
  | [], _ => []
  | r :: repeated, free =>
    let (taken, left) := takeNearest r.value r.multiplicity free
    taken.map (⟨·, 1⟩) ++ split repeated left

/-- The roots of all square-free factors with the factors'
multiplicities. -/
@[specialize] def factorRoots (iterations : Nat) :
    List (Squarefree.Factor α) → Except Error (List (Root α))
  | [] => .ok []
  | f :: factors => do
    let here ← Roots.find f.polynomial iterations
    let others ← factorRoots iterations factors
    return here.map (⟨·, f.multiplicity⟩) ++ others

/-- The roots of a polynomial around a repeated root of one of its
factors do not all lie within `ε`. -/
@[specialize] def isUnconfirmed (coefficients : Dense α) (ε : α) (r : Root α) : Bool :=
  1 < r.multiplicity && exceeds (clusterRadius coefficients r.value r.multiplicity) ε

/-- Roots by way of the square-free factors.  Without factors whose
degrees add up there are none. -/
@[specialize] def byFactors (coefficients : Dense α) (ε : α) (iterations : Nat) :
    Except Error (List (Root α)) := do
  let factors := Squarefree.decompose coefficients
  if Squarefree.totalDegree factors ≠ Dense.degree coefficients then return []
  let found ← factorRoots iterations factors
  let (unconfirmed, confirmed) := found.partition (isUnconfirmed coefficients ε)
  if unconfirmed.isEmpty then return confirmed
  return confirmed ++ split unconfirmed (← Roots.find coefficients iterations)

/-- Roots with multiplicities that add up to the degree: by way of the
square-free factors if that succeeds, all simple otherwise. -/
@[specialize] def candidates (coefficients : Dense α) (ε : α) (iterations : Nat) :
    Except Error (List (Root α)) :=
  let direct : Except Error (List (Root α)) := do
    return (← Roots.find coefficients iterations).map (⟨·, 1⟩)
  match byFactors coefficients ε iterations with
  | .error _ => direct
  | .ok found =>
    if (found.map Root.multiplicity).foldr (· + ·) 0 = Dense.degree coefficients then .ok found
    else direct

end Multiplicity

end Univariate
