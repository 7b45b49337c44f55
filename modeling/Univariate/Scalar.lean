/-!
# Scalars: the arithmetic that polynomials are computed in

Everything numeric in this library is written once, over a type `α` that
supports the operations of `Scalar`: the four operations, a magnitude,
comparisons with a Boolean answer, and an order to sort by.  Root finding
asks for a little more (`Analytic`): roots of a magnitude, an angle, and
its sine and cosine.

The classes carry operations and **no laws**.  Binary floating point
satisfies almost none of the laws of a field, so a statement about a
definition either needs no law at all, or names the instance (floating
point, or an ordered field) that it is about.  Each definition fixes the
order of its operations, because in rounded arithmetic the order is part
of the answer.

* `Scalar.max` — the larger of two, or the other one if one is not a
  number;
* `Scalar.pow` — natural powers, by squaring up to the largest 31-bit
  exponent;
* `Scalar.epsilon`, `Scalar.gcdTolerance` — the two scale-free constants
  that tolerances are multiples of.
-/

namespace Univariate

/-- The arithmetic of coefficients.  The comparisons answer with a
Boolean, so that an incomparable value (not a number) can answer `false`
to all of them, `eq` with itself included. -/
class Scalar (α : Type) extends Add α, Sub α, Mul α, Div α, Neg α where
  /-- The value of a natural number, rounded if it has to be. -/
  ofNat : Nat → α
  /-- The magnitude. -/
  abs : α → α
  lt : α → α → Bool
  le : α → α → Bool
  eq : α → α → Bool
  /-- Neither infinite nor undefined. -/
  isFinite : α → Bool
  /-- A total order to sort by, the usual one wherever `lt` decides. -/
  sortsLE : α → α → Bool
  /-- A power whose exponent needs more than 31 bits. -/
  hugePow : α → Nat → α

/-- What the root iteration needs besides arithmetic. -/
class Analytic (α : Type) extends Scalar α where
  /-- `root x k` is the `k`-th root of `x ≥ 0`. -/
  root : α → Nat → α
  /-- The length of the hypotenuse, without overflow on the way. -/
  hypot : α → α → α
  pi : α
  sin : α → α
  cos : α → α

namespace Scalar

variable {α : Type} [Scalar α]

/-- The additive unit. -/
@[inline] def zero : α := ofNat 0

/-- The multiplicative unit. -/
@[inline] def one : α := ofNat 1

/-- The gap between `1` and the next larger number of 53 significant
bits. -/
def epsilon : α := one / ofNat (Nat.pow 2 52)

/-- Relative size under which a computed coefficient counts as
cancelled. -/
def gcdTolerance : α := one / ofNat (Nat.pow 10 9)

/-- The smallest magnitude with 53 significant bits. -/
def minNormal : α := one / ofNat (Nat.pow 2 1022)

/-- The larger of two values; if one of them is not a number, the other
one. -/
@[inline] def max (a b : α) : α :=
  if lt a b || !eq a a then b else a

/-- Square and multiply: `acc · xⁿ`. -/
@[specialize] def powLoop (acc x : α) (n : Nat) : α :=
  if n = 0 then acc
  else powLoop (if n % 2 = 1 then acc * x else acc) (x * x) (n / 2)
termination_by n
decreasing_by omega

/-- The largest exponent that `pow` squares its way through. -/
def maxSquaredExponent : Nat := Nat.pow 2 31 - 1

/-- The `n`-th power. -/
@[specialize] def pow (x : α) (n : Nat) : α :=
  if n ≤ maxSquaredExponent then powLoop one x n else hugePow x n

/-- The largest magnitude in a list, `0` for the empty one. -/
@[specialize] def maxAbs (xs : List α) : α :=
  xs.foldl (fun m x => max m (abs x)) zero

end Scalar

end Univariate
