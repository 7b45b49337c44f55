import Univariate.Decimal.Shortest

/-!
# Fixed places

A number rounded to a given count of decimal places.  The exact binary
value is rounded, and a tie goes to the even neighbour.

* `Decimal.roundDiv` — a quotient of natural numbers to the nearest
  integer, ties to even;
* `Decimal.fixed` — the text with exactly the given count of places.
-/

namespace Univariate

namespace Decimal

/-- The integer nearest to `num / den`; of two equally near ones the even
one. -/
def roundDiv (num den : Nat) : Nat :=
  let quotient := num / den
  let twice := 2 * (num % den)
  if den < twice ∨ (den = twice ∧ quotient % 2 = 1) then quotient + 1 else quotient

/-- A count of units of `10^(-places)`, written with its places. -/
def placed (places units : Nat) : String :=
  let fraction := natText (units % Nat.pow 10 places)
  natText (units / Nat.pow 10 places) ++ "." ++
    String.ofList (List.replicate (places - fraction.length) '0') ++ fraction

/-- A number with exactly `places ≥ 1` decimals. -/
def fixed (places : Nat) (x : Float) : String :=
  match FloatValue.ofFloat x with
  | .undefined => "NaN"
  | .infinite negative => signed negative "inf"
  | .finite d =>
    signed d.negative (placed places (roundDiv (d.numerator * Nat.pow 10 places) d.denominator))

end Decimal

end Univariate
