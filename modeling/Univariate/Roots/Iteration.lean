import Univariate.Cplx
import Univariate.Dense
import Univariate.Error

/-!
# All roots at once

The roots of a polynomial are refined together.  Each step moves one
approximation by a Newton correction from which the pull of all other
approximations has been taken off, so that no two run into the same root;
an approximation that has moved counts at its new place for those after
it.  The start is a circle whose radius bounds the moduli of the roots,
turned off the real axis.

* `Roots.hornerPair` — a polynomial and its derivative at a point;
* `Roots.sweep` — one step for every approximation;
* `Roots.iterate` — sweeps until the steps are as small as rounding
  allows, or the iterations are used up;
* `Roots.find` — all roots, those at zero exactly and first.
-/

namespace Univariate

namespace Roots

variable {α : Type}

/-- Multiples of the rounding unit: the relative size of a step after
which an approximation rests. -/
def stepUlps : Nat := 4

/-- Multiples of the rounding bound up to which the value at an
approximation counts as zero. -/
def residualUlps : Nat := 10000

section

variable [Scalar α]

/-- The relative size of a step after which an approximation rests. -/
def stepTolerance : α := Scalar.ofNat stepUlps * Scalar.epsilon

/-- The values of a polynomial and of its derivative. -/
@[specialize] def hornerPair (z : Cplx α) : Dense α → Cplx α × Cplx α
  | [] => (Cplx.zero, Cplx.zero)
  | c :: cs =>
    let (p, dp) := hornerPair z cs
    ((p * z).addReal c, dp * z + p)

/-- `Σ |cᵢ| rⁱ`. -/
@[specialize] def magnitudeAt (r : α) : Dense α → α
  | [] => Scalar.zero
  | c :: cs => magnitudeAt r cs * r + Scalar.abs c

end

variable [Analytic α]

/-- The pull of the other approximations on the one at `z`.  Those at the
very same place do not count. -/
@[specialize] def repulsion (z : Cplx α) (others : List (Cplx α)) : Cplx α :=
  others.foldl (fun sum other =>
    let d := z - other
    if Scalar.eq d.norm Scalar.zero then sum else sum + d.inv) Cplx.zero

/-- The step of one approximation; none where the polynomial vanishes
already.  At a stationary point the approximation is nudged. -/
@[specialize] def correction (coefficients : Dense α) (z : Cplx α)
    (others : List (Cplx α)) : Option (Cplx α) :=
  let (p, dp) := hornerPair z coefficients
  if Scalar.eq p.norm Scalar.zero then none
  else
    let denominator := dp / p - repulsion z others
    if Scalar.eq denominator.norm Scalar.zero then
      let nudge : Cplx α := ⟨stepTolerance, stepTolerance⟩
      some (nudge.scale (Scalar.max z.norm Scalar.one))
    else some denominator.inv

/-- One step for each approximation in `waiting`, after those in `moved`.
The largest relative step so far is carried along. -/
@[specialize] def sweep (coefficients : Dense α) (moved : List (Cplx α)) (largest : α) :
    List (Cplx α) → List (Cplx α) × α
  | [] => (moved, largest)
  | z :: waiting =>
    match correction coefficients z (moved ++ waiting) with
    | none => sweep coefficients (moved ++ [z]) largest waiting
    | some step =>
      let next := z - step
      let size := step.norm / Scalar.max next.norm Scalar.one
      sweep coefficients (moved ++ [next]) (Scalar.max largest size) waiting

/-- How the sweeps came to an end. -/
inductive Outcome (α : Type) where
  /-- The steps have become as small as rounding allows. -/
  | converged (roots : List (Cplx α))
  /-- The iterations are used up. -/
  | stalled (roots : List (Cplx α))
  /-- An approximation is no longer a finite number. -/
  | diverged

/-- Sweeps, at most `iterations` of them. -/
@[specialize] def iterate (coefficients : Dense α) :
    Nat → List (Cplx α) → Outcome α
  | 0, roots => .stalled roots
  | iterations + 1, roots =>
    let (next, largest) := sweep coefficients [] Scalar.zero roots
    if !next.all Cplx.isFinite then .diverged
    else if Scalar.le largest stepTolerance then .converged next
    else iterate coefficients iterations next

/-- A bound of the moduli of the roots: the largest `k`-th root of a
relative coefficient `k` places below the leading one. -/
@[specialize] def startRadius (coefficients : Dense α) : α :=
  match coefficients.reverse with
  | [] => Scalar.one
  | lead :: lower =>
    let radius := (lower.zipIdx 1).foldl (fun largest (c, k) =>
      Scalar.max largest (Analytic.root (Scalar.abs (c / lead)) k)) Scalar.zero
    if Scalar.lt Scalar.zero radius then radius else Scalar.one

/-- The angle of the `k`-th of `n` points on the starting circle. -/
@[specialize] def startAngle (n k : Nat) : α :=
  Scalar.ofNat 2 * Analytic.pi * Scalar.ofNat k / Scalar.ofNat n +
    Analytic.pi / (Scalar.ofNat 2 * Scalar.ofNat n) +
    Scalar.ofNat 2 / Scalar.ofNat 5

/-- The points that the iteration starts from. -/
@[specialize] def startPoints (coefficients : Dense α) : List (Cplx α) :=
  let n := Dense.degree coefficients
  let radius := startRadius coefficients
  (List.range n).map fun k => Cplx.ofPolar radius (startAngle n k)

/-- The value at `z` is within a multiple of the rounding errors that
computing it makes. -/
@[specialize] def isResidualSmall (coefficients : Dense α) (z : Cplx α) : Bool :=
  Scalar.le (hornerPair z coefficients).1.norm
    (Scalar.ofNat residualUlps * Scalar.epsilon * magnitudeAt z.norm coefficients)

/-- All roots of a polynomial with a first coefficient other than zero.
Approximations that have not come to rest are good enough where the
polynomial vanishes up to rounding. -/
@[specialize] def findNonzero (coefficients : Dense α) (iterations : Nat) :
    Except Error (List (Cplx α)) :=
  match coefficients with
  | [] | [_] => .ok []
  | [constant, slope] => .ok [Cplx.ofReal (-constant / slope)]
  | _ =>
    match iterate coefficients iterations (startPoints coefficients) with
    | .diverged => .error (.unsolvable .nonFinite)
    | .converged roots => .ok roots
    | .stalled roots =>
      let bad := roots.countP fun z => !isResidualSmall coefficients z
      if 0 < bad then
        .error (.unsolvable (.notConverged bad (Dense.degree coefficients) iterations))
      else .ok roots

/-- All roots of a polynomial, with repetition.  The leading coefficient
is not zero. -/
@[specialize] def find (coefficients : Dense α) (iterations : Nat) :
    Except Error (List (Cplx α)) := do
  let isZero (c : α) : Bool := Scalar.eq c Scalar.zero
  let zeros := (coefficients.takeWhile isZero).map fun _ => Cplx.zero
  return zeros ++ (← findNonzero (coefficients.dropWhile isZero) iterations)

end Roots

end Univariate
