import Univariate.NormalForm
import Univariate.Roots.Multiplicity

/-!
# Solving a polynomial

The policy every solver follows: roots ascend by real part, ties by
imaginary part; a root within `ε` of one that has been reported adds to
its multiplicity, where `ε` is the tolerance times the larger of one and
the Cauchy bound; complex roots are always reported, and imaginary parts
within `ε` become zero; a constant has no roots, and the zero polynomial
is a case of its own.

* `Solution.cauchyBound` — a radius within which all roots lie;
* `Solution.ofNormalForm` — the solution of a polynomial;
* `Solution.rootTexts`, `Solution.factorizationText` — the texts.
-/

namespace Univariate

/-- The numeric policy of the solver. -/
structure SolverSettings (α : Type) where
  /-- Roots closer than this, relative to the size of the roots, are
  one. -/
  rootTolerance : α
  /-- How many sweeps the root iteration may take. -/
  maxIterations : Nat

/-- What there is to say about the roots of a polynomial. -/
inductive Solution (α : Type) where
  /-- Of degree one at least. -/
  | roots (roots : List (Root α)) (factorization : Factorization α)
  /-- A constant other than zero: no roots. -/
  | constant (value : α)
  /-- Every value is a root. -/
  | identicallyZero

namespace Solution

variable {α : Type}

/-- The distinct roots, none for the two special cases. -/
def rootList : Solution α → List (Root α)
  | roots rs _ => rs
  | _ => []

/-- The polynomial is zero. -/
def isIdenticallyZero : Solution α → Bool
  | identicallyZero => true
  | _ => false

/-- The multiplicities, summed. -/
def multiplicitySum (s : Solution α) : Nat := (s.rootList.map Root.multiplicity).foldr (· + ·) 0

/-- One more than the largest magnitude of a coefficient relative to the
leading one. -/
@[specialize] def cauchyBound [Scalar α] (coefficients : Dense α) : α :=
  match coefficients.reverse with
  | [] => Scalar.one
  | lead :: lower =>
    Scalar.one + lower.reverse.foldl (fun largest c =>
      Scalar.max largest (Scalar.abs c / Scalar.abs lead)) Scalar.zero

/-- The distance within which roots are one. -/
@[specialize] def mergeDistance [Scalar α] (settings : SolverSettings α)
    (coefficients : Dense α) : α :=
  settings.rootTolerance * Scalar.max (cauchyBound coefficients) Scalar.one

/-- Solves a polynomial. -/
@[specialize] def ofNormalForm [Analytic α] (p : NormalForm α)
    (settings : SolverSettings α) : Except Error (Solution α) :=
  match p.degree? with
  | none => .ok identicallyZero
  | some 0 => .ok (constant p.leading)
  | some _ => do
    let coefficients := p.coefficients
    let ε := mergeDistance settings coefficients
    let found ← Multiplicity.candidates coefficients ε settings.maxIterations
    let distinct := Cluster.cluster ε found
    return roots distinct ⟨p.leading, distinct⟩

/-- The text of each distinct root. -/
def rootTexts (s : Solution Float) : List String := s.rootList.map Root.display

/-- The text of the factorization in the given variable. -/
def factorizationText (s : Solution Float) (name : String) : String :=
  match s with
  | roots _ factorization => factorization.render name
  | constant c => Display.real c
  | identicallyZero => "0"

end Solution

end Univariate
