import Univariate.Cplx

/-!
# Normal forms of polynomials

A polynomial as its nonzero terms, degrees strictly decreasing.  The zero
polynomial has no terms.

* `NormalForm.Canonical` — what every normal form satisfies that is built
  here;
* `NormalForm.ofTerms`, `NormalForm.ofDense` — from terms in any order,
  and from all coefficients by ascending degree;
* `NormalForm.coefficients` — all coefficients by ascending degree;
* `NormalForm.eval`, `NormalForm.evalCplx` — the value at a point, by a
  Horner scheme that steps over the gaps between degrees;
* `NormalForm.approxEq`, `NormalForm.same` — equality up to a tolerance,
  and of degrees and values.
-/

namespace Univariate

/-- The terms of a polynomial, as pairs of a degree and a coefficient,
highest degree first. -/
structure NormalForm (α : Type) where
  terms : List (Nat × α)

namespace NormalForm

variable {α : Type}

/-- The zero polynomial. -/
def zero : NormalForm α := ⟨[]⟩

/-- There are no terms. -/
def isZero (p : NormalForm α) : Bool := p.terms.isEmpty

/-- The highest degree; the zero polynomial has none. -/
def degree? (p : NormalForm α) : Option Nat := p.terms.head?.map Prod.fst

variable [Scalar α]

/-- Degrees strictly decrease, and no coefficient is zero. -/
def Canonical (p : NormalForm α) : Prop :=
  p.terms.Pairwise (fun s t => t.1 < s.1) ∧
    ∀ t ∈ p.terms, Scalar.eq t.2 (Scalar.zero : α) = false

/-- The coefficient of the highest term, `0` without terms. -/
def leading (p : NormalForm α) : α :=
  match p.terms with
  | [] => Scalar.zero
  | (_, c) :: _ => c

/-- The coefficient of a degree, `0` where there is no term. -/
def coefficient (p : NormalForm α) (degree : Nat) : α :=
  match p.terms.find? (·.1 == degree) with
  | some (_, c) => c
  | none => Scalar.zero

/-- The normal form with the nonzero ones of some coefficients, given by
strictly ascending degrees. -/
def ofAscending (ascending : List (Nat × α)) : NormalForm α :=
  ⟨ascending.reverse.filter fun t => !Scalar.eq t.2 Scalar.zero⟩

/-- Adds a term to terms of strictly ascending degrees.  A degree that is
not there yet starts from zero. -/
def addTerm (degree : Nat) (c : α) : List (Nat × α) → List (Nat × α)
  | [] => [(degree, Scalar.zero + c)]
  | (d, s) :: rest =>
    if degree < d then (degree, Scalar.zero + c) :: (d, s) :: rest
    else if degree = d then (d, s + c) :: rest
    else (d, s) :: addTerm degree c rest

/-- From terms in any order: those of one degree are summed. -/
def ofTerms (terms : List (Nat × α)) : NormalForm α :=
  ofAscending (terms.foldl (fun sums t => addTerm t.1 t.2 sums) [])

/-- A constant polynomial. -/
def constant (c : α) : NormalForm α := ofTerms [(0, c)]

/-- From all coefficients, lowest degree first. -/
def ofDense (coefficients : List α) : NormalForm α :=
  ofAscending (coefficients.zipIdx.map fun (c, d) => (d, c))

/-- The coefficients from `degree` on upwards, of terms in ascending
order: zeros in the gaps. -/
def fillGaps (degree : Nat) : List (Nat × α) → List α
  | [] => []
  | (d, c) :: rest =>
    List.replicate (d - degree) Scalar.zero ++ c :: fillGaps (d + 1) rest

/-- All coefficients, lowest degree first; none for the zero
polynomial. -/
def coefficients (p : NormalForm α) : List α := fillGaps 0 p.terms.reverse

/-- The Horner scheme after terms down to degree `above` have been summed
up in `acc`. -/
@[specialize] def hornerFrom (x : α) (acc : α) (above : Nat) : List (Nat × α) → α
  | [] => acc * Scalar.pow x above
  | (d, c) :: rest => hornerFrom x (acc * Scalar.pow x (above - d) + c) d rest

/-- The value at a number. -/
def eval (p : NormalForm α) (x : α) : α :=
  match p.degree? with
  | none => Scalar.zero
  | some d => hornerFrom x Scalar.zero d p.terms

/-- `hornerFrom` at a complex number. -/
@[specialize] def hornerFromCplx (z : Cplx α) (acc : Cplx α) (above : Nat) :
    List (Nat × α) → Cplx α
  | [] => acc * z.pow above
  | (d, c) :: rest =>
    hornerFromCplx z ((acc * z.pow (above - d)).addReal c) d rest

/-- The value at a complex number. -/
def evalCplx (p : NormalForm α) (z : Cplx α) : Cplx α :=
  match p.degree? with
  | none => Cplx.zero
  | some d => hornerFromCplx z Cplx.zero d p.terms

/-- Two coefficients differ by at most `tolerance`, or by that share of
the larger magnitude where it exceeds `1`. -/
def closeTo (tolerance a b : α) : Bool :=
  Scalar.le (Scalar.abs (a - b))
    (tolerance * Scalar.max (Scalar.max (Scalar.abs a) (Scalar.abs b)) Scalar.one)

/-- All coefficients are close. -/
def approxEq (p q : NormalForm α) (tolerance : α) : Bool :=
  ((p.terms ++ q.terms).map Prod.fst).all fun d =>
    closeTo tolerance (p.coefficient d) (q.coefficient d)

/-- The same degrees with equal coefficients. -/
def same (p q : NormalForm α) : Bool :=
  p.terms.length == q.terms.length &&
    (p.terms.zip q.terms).all fun (s, t) => s.1 == t.1 && Scalar.eq s.2 t.2

end NormalForm

end Univariate
