import Univariate.Dense

/-!
# Square-free decomposition

A polynomial is written as `lead · f₁ · f₂² · f₃³ ⋯`, with monic factors
that have no repeated roots.  With `g = gcd p p'`, the loop starts from
`a = p / g` and `b = p' / g`; each pass looks at `c = b - a'`.  If `c`
vanishes, `a` is the last factor; otherwise `gcd a c` is the factor of
the current multiplicity and is divided out of both.

* `Squarefree.decompose` — the factors with their multiplicities;
* `Squarefree.totalDegree` — what the degrees add up to.
-/

namespace Univariate

namespace Squarefree

/-- A factor, monic and without repeated roots, and the power it appears
with. -/
structure Factor (α : Type) where
  polynomial : Dense α
  multiplicity : Nat

variable {α : Type} [Scalar α]

/-- At most `passes` passes of the loop. -/
@[specialize] def passes : Nat → Nat → Dense α → Dense α → List (Factor α)
  | 0, _, _, _ => []
  | more + 1, multiplicity, a, b =>
    let slope := Dense.derivative a
    let difference := Dense.sub b slope
    let scale := Scalar.max (Scalar.max (Dense.norm b) (Dense.norm slope)) Scalar.one
    let tolerance := Scalar.gcdTolerance * scale
    if Dense.isNegligible difference tolerance then
      if 0 < Dense.degree a then [⟨a, multiplicity⟩] else []
    else
      let c := Dense.trim difference tolerance
      let d := Dense.gcd a c
      let found : List (Factor α) := if 0 < Dense.degree d then [⟨d, multiplicity⟩] else []
      let next := Dense.quotient a d
      if Dense.degree next = 0 then found
      else found ++ passes more (multiplicity + 1) next (Dense.quotient c d)

/-- The factors of a polynomial of degree at least one, by ascending
multiplicity.  Multiplicities are at most the degree, so one pass more
than that always reaches the last factor. -/
@[specialize] def decompose (coefficients : Dense α) : List (Factor α) :=
  let p := Dense.makeMonic coefficients
  let slope := Dense.derivative p
  let g := Dense.gcd p slope
  if Dense.degree g = 0 then [⟨p, 1⟩]
  else passes (Dense.degree p + 1) 1 (Dense.quotient p g) (Dense.quotient slope g)

/-- The degrees of the factors, times their multiplicities, summed. -/
def totalDegree {α : Type} (factors : List (Factor α)) : Nat :=
  (factors.map fun f => f.multiplicity * Dense.degree f.polynomial).foldr (· + ·) 0

end Squarefree

end Univariate
