import Univariate.Error
import Univariate.Expr
import Univariate.NormalForm

/-!
# Expanding an expression into its normal form

An expansion holds, for each degree met, the running sum of the
contributions to it, together with the sum of their magnitudes.  The
second sum tells a coefficient that has cancelled, up to rounding, from
one that is small: a slot is *live* while its value exceeds eight units
in the last place of what went into it.  Only live slots multiply, count
for the degree, and reach the normal form.

* `Slot.isLive` — the test;
* `Expansion.merge`, `Expansion.mul`, `Expansion.pow` — the arithmetic of
  expansions, products within a degree limit;
* `Expr.expand` — the expansion of a tree;
* `Expr.normalize` — its normal form.
-/

namespace Univariate

/-- A running sum and the total magnitude that went into it. -/
structure Slot (α : Type) where
  value : α
  magnitude : α

/-- Slots by strictly ascending degree. -/
abbrev Expansion (α : Type) := List (Nat × Slot α)

/-- The default limit on the degree. -/
def defaultMaxDegree : Nat := 64

/-- Units in the last place up to which a sum counts as cancelled. -/
def cancellationUlps : Nat := 8

namespace Slot

variable {α : Type} [Scalar α]

/-- The slot of a single contribution. -/
def single (value : α) : Slot α := ⟨value, Scalar.abs value⟩

/-- The value is more than the rounding errors of its contributions. -/
def isLive (s : Slot α) : Bool :=
  Scalar.lt (Scalar.ofNat cancellationUlps * Scalar.epsilon * s.magnitude)
    (Scalar.abs s.value)

/-- Two sums of contributions taken together. -/
def add (s t : Slot α) : Slot α := ⟨s.value + t.value, s.magnitude + t.magnitude⟩

/-- Nothing has contributed. -/
def zero : Slot α := ⟨Scalar.zero, Scalar.zero⟩

/-- The product of two contributions. -/
def mul (s t : Slot α) : Slot α := ⟨s.value * t.value, s.magnitude * t.magnitude⟩

end Slot

namespace Expansion

variable {α : Type} [Scalar α]

/-- The expansion of one term. -/
def single (degree : Nat) (value : α) : Expansion α := [(degree, Slot.single value)]

/-- The live slots. -/
def live (p : Expansion α) : Expansion α := p.filter (·.2.isLive)

/-- The degree of the highest live slot, `0` without one. -/
def topDegree (p : Expansion α) : Nat :=
  match p.reverse.find? (·.2.isLive) with
  | some (d, _) => d
  | none => 0

/-- Adds the slots of `q` to those of `p`.  A slot that `p` lacks starts
from zero. -/
def merge : Expansion α → Expansion α → Expansion α
  | [], q => q.map fun (d, t) => (d, Slot.zero.add t)
  | s :: p, [] => s :: p
  | (d, s) :: p, (e, t) :: q =>
    if d < e then (d, s) :: merge p ((e, t) :: q)
    else if e < d then (e, Slot.zero.add t) :: merge ((d, s) :: p) q
    else (d, s.add t) :: merge p q
termination_by p q => p.length + q.length

/-- Multiplies the values and leaves the magnitudes, for a factor of
magnitude one. -/
def withSign (sign : α) (p : Expansion α) : Expansion α :=
  p.map fun (d, s) => (d, ⟨sign * s.value, s.magnitude⟩)

/-- `p + sign · q`. -/
def addSigned (p q : Expansion α) (sign : α) : Expansion α := merge p (withSign sign q)

/-- Every slot times `k`. -/
def scale (p : Expansion α) (k : α) : Expansion α :=
  p.map fun (d, s) => (d, ⟨s.value * k, s.magnitude * Scalar.abs k⟩)

/-- One slot times every live slot of `q`. -/
def row (degree : Nat) (s : Slot α) (q : Expansion α) : Expansion α :=
  q.live.map fun (e, t) => (degree + e, s.mul t)

/-- The product of the live slots, if the degree allows. -/
def mul (limit : Nat) (p q : Expansion α) : Except Error (Expansion α) :=
  let degree := p.topDegree + q.topDegree
  if limit < degree then .error (.domain (.degreeOverLimit degree limit))
  else .ok (p.live.foldl (fun sums (d, s) => merge sums (row d s q)) [])

/-- Square and multiply: `result · squareⁿ`. -/
def powLoop (limit : Nat) (result square : Expansion α) (n : Nat) :
    Except Error (Expansion α) :=
  if n = 0 then .ok result
  else do
    let result ← if n % 2 = 1 then mul limit result square else .ok result
    if n / 2 = 0 then return result
    else powLoop limit result (← mul limit square square) (n / 2)
termination_by n
decreasing_by omega

/-- The `n`-th power. -/
def pow (limit : Nat) (p : Expansion α) (n : Nat) : Except Error (Expansion α) :=
  let degree := p.topDegree * n
  if limit < degree then .error (.domain (.degreeOverLimit degree limit))
  else powLoop limit (single 0 Scalar.one) p n

/-- The live value of degree zero, `0` if there is none. -/
def constantTerm (p : Expansion α) : α :=
  match p.find? (·.1 == 0) with
  | some (_, s) => if s.isLive then s.value else Scalar.zero
  | none => Scalar.zero

/-- The quotient by an expansion without the variable. -/
def div (p q : Expansion α) : Except Error (Expansion α) :=
  if 0 < q.topDegree then .error (.notPolynomial .variableInDenominator)
  else
    let divisor := q.constantTerm
    if Scalar.eq divisor Scalar.zero then .error (.domain .divisionByZero)
    else .ok (p.scale (Scalar.one / divisor))

/-- The live slots as terms. -/
def toNormalForm (p : Expansion α) : NormalForm α :=
  ⟨p.live.reverse.map fun (d, s) => (d, s.value)⟩

end Expansion

namespace Expr

variable {α : Type} [Scalar α]

/-- The expansion of a tree, with products and powers of degree at most
`limit`. -/
def expand (limit : Nat) : Expr α → Except Error (Expansion α)
  | const c => .ok (.single 0 c)
  | var => .ok (.single 1 Scalar.one)
  | add l r => do return (← l.expand limit).addSigned (← r.expand limit) Scalar.one
  | sub l r => do return (← l.expand limit).addSigned (← r.expand limit) (-Scalar.one)
  | neg inner => do return (← inner.expand limit).scale (-Scalar.one)
  | mul l r => do Expansion.mul limit (← l.expand limit) (← r.expand limit)
  | div l r => do Expansion.div (← l.expand limit) (← r.expand limit)
  | pow base n => do Expansion.pow limit (← base.expand limit) n

/-- The normal form of a tree. -/
def normalize (e : Expr α) (limit : Nat) : Except Error (NormalForm α) := do
  return (← e.expand limit).toNormalForm

end Expr

end Univariate
