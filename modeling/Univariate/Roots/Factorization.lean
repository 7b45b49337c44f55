import Univariate.Cplx
import Univariate.Display
import Univariate.NormalForm

/-!
# Roots and factorizations

A root with its multiplicity, and a polynomial as `lead · Π (x - rᵢ)^mᵢ`
with the factors in the order of the roots.

* `Factorization.expand` — the factors multiplied out;
* `Factorization.toNormalForm` — the real part of that;
* `Root.display`, `Factorization.render` — the texts.
-/

namespace Univariate

/-- A root and how many times it repeats. -/
structure Root (α : Type) where
  value : Cplx α
  multiplicity : Nat

/-- `leading · Π (x - rᵢ)^mᵢ`. -/
structure Factorization (α : Type) where
  leading : α
  factors : List (Root α)

namespace Root

variable {α : Type} [Scalar α]

/-- A root on the real axis. -/
def real (x : α) (multiplicity : Nat) : Root α := ⟨Cplx.ofReal x, multiplicity⟩

/-- The imaginary part is zero. -/
def isReal (r : Root α) : Bool := Scalar.eq r.value.im Scalar.zero

end Root

namespace Factorization

variable {α : Type} [Scalar α]

/-- A polynomial times `x - root`, lowest degree first: `below` is what
the coefficient one place down has left for this place. -/
def timesLinearFrom (root below : Cplx α) : List (Cplx α) → List (Cplx α)
  | [] => [below]
  | c :: cs => (below - c * root) :: timesLinearFrom root (Cplx.zero + c) cs

/-- A polynomial times `x - root`. -/
def timesLinear (root : Cplx α) (p : List (Cplx α)) : List (Cplx α) :=
  timesLinearFrom root Cplx.zero p

/-- A polynomial times `(x - root)^n`. -/
def timesPower (root : Cplx α) : Nat → List (Cplx α) → List (Cplx α)
  | 0, p => p
  | n + 1, p => timesPower root n (timesLinear root p)

/-- The factors multiplied out, lowest degree first. -/
def expand (f : Factorization α) : List (Cplx α) :=
  f.factors.foldl (fun p r => timesPower r.value r.multiplicity p)
    [Cplx.ofReal f.leading]

/-- The real part of the product. -/
def toNormalForm (f : Factorization α) : NormalForm α :=
  .ofDense (f.expand.map Cplx.re)

end Factorization

/-- A root with its multiplicity, if that is more than one. -/
def Root.display (r : Root Float) : String :=
  Display.complex r.value ++
    if 1 < r.multiplicity then
      " (multiplicity " ++ Decimal.natText r.multiplicity ++ ")"
    else ""

/-- One linear factor: `x`, `(x - 1)`, `(x + 1)`, `(x - (1 + 2i))`. -/
def Root.linearText (r : Root Float) (name : String) : String :=
  if Display.complex r.value = "0" then name
  else if r.isReal then
    if 0 < r.value.re then "(" ++ name ++ " - " ++ Display.real r.value.re ++ ")"
    else "(" ++ name ++ " + " ++ Display.real (-r.value.re) ++ ")"
  else "(" ++ name ++ " - (" ++ Display.complex r.value ++ "))"

/-- One factor with its power. -/
def Root.factorText (r : Root Float) (name : String) : String :=
  r.linearText name ++
    if 1 < r.multiplicity then "^" ++ Decimal.natText r.multiplicity else ""

/-- The leading coefficient; one is left out. -/
def Factorization.leadingText (leading : Float) : String :=
  let text := Display.real leading
  if text = "1" then "" else if text = "-1" then "-" else text

/-- A factorization in the given variable: `2(x - 1)^2(x + 3)`. -/
def Factorization.render (f : Factorization Float) (name : String) : String :=
  Factorization.leadingText f.leading ++
    String.join (f.factors.map fun r => r.factorText name)

end Univariate
