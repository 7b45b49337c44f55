import Univariate.Decimal.Shortest
import Univariate.Scalar.Float

/-!
# Reading decimals

A decimal is digits with at most one point, at least one digit, and an
optional exponent.  It is read as the binary64 number nearest to it, ties
to even, infinity above the largest and zero below the smallest.

* `Decimal.spanDigits` — the leading run of digits, and what follows;
* `Decimal.nearest` — the number nearest to `m · 10^e`;
* `Decimal.read?` — a text read as a number.
-/

namespace Univariate

namespace Decimal

/-- A decimal digit of the basic alphabet. -/
def isDigit (c : Char) : Bool := '0' ≤ c && c ≤ '9'

/-- What a digit counts. -/
def digitValue (c : Char) : Nat := c.toNat - '0'.toNat

/-- The natural number that a run of digits writes, continuing from an
earlier run of value `m`. -/
def ofDigits (m : Nat) (ds : List Char) : Nat :=
  ds.foldl (fun n c => 10 * n + digitValue c) m

/-- The leading digits and the rest. -/
def spanDigits (cs : List Char) : List Char × List Char :=
  (cs.takeWhile isDigit, cs.dropWhile isDigit)

/-- The binary64 number nearest to `m · 10^e`.  Exponents far outside the
range are answered at once, before the power of ten is formed. -/
def nearest (m : Nat) (e : Int) : Float :=
  if m = 0 then 0
  else
    let top := (digitCount m : Int) + e
    if 310 < top then Binary64.infinity
    else if top < -330 then 0
    else Float.ofScientific m (decide (e < 0)) e.natAbs

/-- An exponent mark, a sign or none, and at least one digit, to the end
of the text. -/
def readExponent? : List Char → Option Int
  | [] => some 0
  | mark :: cs =>
    if mark = 'e' ∨ mark = 'E' then
      let (negative, ds) : Bool × List Char :=
        match cs with
        | '-' :: ds => (true, ds)
        | '+' :: ds => (false, ds)
        | ds => (false, ds)
      if ds ≠ [] ∧ ds.all isDigit then
        let n : Int := ofDigits 0 ds
        some (if negative then -n else n)
      else none
    else none

/-- The number that an unsigned decimal writes. -/
def read? (text : List Char) : Option Float :=
  let (whole, rest) := spanDigits text
  let (fraction, rest) :=
    match rest with
    | '.' :: more => spanDigits more
    | _ => ([], rest)
  if whole = [] ∧ fraction = [] then none
  else
    (readExponent? rest).map fun e =>
      nearest (ofDigits (ofDigits 0 whole) fraction) (e - fraction.length)

end Decimal

end Univariate
