/-!
# Dyadic values: what the bits of a binary64 number say

A finite binary64 number is a sign and a natural number times a power of
two.  `Dyadic.ofFloat` takes the three parts out of the bits; everything
that writes numbers in decimal works on them in exact integer arithmetic.

* `Dyadic.numerator`, `Dyadic.denominator` — the magnitude as a fraction
  of natural numbers;
* `Dyadic.nearestInteger` — the closest integer, a half going away from
  zero;
* `Dyadic.toInt?` — the integer that the value is, if it is one.
-/

namespace Univariate

/-- The magnitude `mantissa · 2^exponent` with a sign. -/
structure Dyadic where
  negative : Bool
  mantissa : Nat
  exponent : Int
deriving Repr, DecidableEq

/-- A binary64 value: undefined, infinite, or dyadic. -/
inductive FloatValue where
  | undefined
  | infinite (negative : Bool)
  | finite (value : Dyadic)
deriving Repr, DecidableEq

namespace FloatValue

/-- Splits the bits into a sign, eleven bits of exponent and fifty-two of
fraction.  A nonzero exponent field stands for a leading bit that is not
stored; the zero field is for the numbers below it, on the same grid as
field one. -/
def ofFloat (x : Float) : FloatValue :=
  if x.isNaN then .undefined
  else
    let bits : Nat := x.toBits.toNat
    let negative := decide (Nat.pow 2 63 ≤ bits)
    let field : Nat := bits / Nat.pow 2 52 % Nat.pow 2 11
    let fraction : Nat := bits % Nat.pow 2 52
    if field = 2047 then .infinite negative
    else if field = 0 then .finite ⟨negative, fraction, -1074⟩
    else .finite ⟨negative, Nat.pow 2 52 + fraction, (field : Int) - 1075⟩

end FloatValue

namespace Dyadic

/-- The numerator of the magnitude over `denominator`. -/
def numerator (d : Dyadic) : Nat :=
  if 0 ≤ d.exponent then d.mantissa * Nat.pow 2 d.exponent.toNat else d.mantissa

/-- A power of two. -/
def denominator (d : Dyadic) : Nat :=
  if 0 ≤ d.exponent then 1 else Nat.pow 2 (-d.exponent).toNat

/-- The closest integer to the magnitude, a half going up: twice the
value plus one, halved downwards. -/
def nearestNat (d : Dyadic) : Nat :=
  (2 * d.numerator + d.denominator) / (2 * d.denominator)

/-- The closest integer, a half going away from zero. -/
def nearestInteger (d : Dyadic) : Int :=
  if d.negative then -(d.nearestNat : Int) else d.nearestNat

/-- The value, if it is an integer. -/
def toInt? (d : Dyadic) : Option Int :=
  if d.numerator % d.denominator = 0 then
    let n : Int := (d.numerator / d.denominator : Nat)
    some (if d.negative then -n else n)
  else none

end Dyadic

end Univariate
