import Univariate.Decimal.Dyadic

/-!
# Shortest decimals

The fewest decimal digits that read back as the number they were written
for, and among those the nearest to it.  The reals that read back as a
binary64 number form an interval around it, half a unit to either side;
its ends belong to it when the mantissa is even.  For one digit, two
digits and so on, the number has two neighbours on the grid of decimals
with that many digits: the first grid on which a neighbour lies in the
interval wins, and of two hits the nearer one.  Everything is compared in
natural numbers, over the common denominator of the interval.

* `Decimal.shortest` — the digits, as a natural number without trailing
  zeros and a power of ten;
* `Decimal.positional` — the digits with a point and no exponent;
* `Decimal.display` — the text of a binary64 number.
-/

namespace Univariate

namespace Decimal

/-- The value `digits · 10^exponent`. -/
structure Scaled where
  digits : Nat
  exponent : Int
deriving Repr, DecidableEq

/-- Which of two equally near neighbours is taken. -/
inductive Tie where
  | up
  | even
deriving Repr, DecidableEq

/-- Number of decimal digits, `1` for zero. -/
def digitCount (n : Nat) : Nat := (Nat.toDigits 10 n).length

/-- The text of a natural number. -/
def natText (n : Nat) : String := String.ofList (Nat.toDigits 10 n)

/-- The interval of reals that read back as a number, with that number,
all three as numerators over one denominator. -/
structure ReadBack where
  low : Nat
  value : Nat
  high : Nat
  denominator : Nat
  /-- Whether the two ends read back as well. -/
  closed : Bool

/-- The interval of a positive dyadic.  The gap below is half as wide as
the one above when the mantissa is the first of its binade, unless the
grid does not narrow there. -/
def ReadBack.ofDyadic (d : Dyadic) : ReadBack :=
  let below := if d.mantissa = Nat.pow 2 52 ∧ -1074 < d.exponent then 1 else 2
  let scale : Dyadic := ⟨false, 1, d.exponent - 2⟩
  let unit := scale.numerator
  { low := (4 * d.mantissa - below) * unit
    value := 4 * d.mantissa * unit
    high := (4 * d.mantissa + 2) * unit
    denominator := scale.denominator
    closed := d.mantissa % 2 = 0 }

/-- A decimal `n · 10^g` compared with `m / denominator`: the two sides
of the comparison, without fractions. -/
def crossMultiply (n : Nat) (g : Int) (m denominator : Nat) : Nat × Nat :=
  if 0 ≤ g then (n * Nat.pow 10 g.toNat * denominator, m)
  else (n * denominator, m * Nat.pow 10 (-g).toNat)

/-- The decimal `n · 10^g` lies in the interval. -/
def ReadBack.contains (r : ReadBack) (n : Nat) (g : Int) : Bool :=
  let (atLow, low) := crossMultiply n g r.low r.denominator
  let (atHigh, high) := crossMultiply n g r.high r.denominator
  if r.closed then low ≤ atLow && atHigh ≤ high
  else low < atLow && atHigh < high

/-- The exponent `k` with `10^(k-1) ≤ value < 10^k`. -/
def ReadBack.magnitude (r : ReadBack) : Int :=
  let guess : Int := (digitCount r.value : Int) - digitCount r.denominator
  let (one, value) := crossMultiply 1 guess r.value r.denominator
  if one ≤ value then guess + 1 else guess

/-- The nearer neighbour of the value on the grid `10^g`, if one of the
two reads back. -/
def ReadBack.hit? (r : ReadBack) (tie : Tie) (g : Int) : Option Scaled :=
  let (unit, value) := crossMultiply 1 g r.value r.denominator
  let lower := value / unit
  let rest := value % unit
  let lowerHits := r.contains lower g
  let upperHits := r.contains (lower + 1) g
  if lowerHits && upperHits then
    let up := unit < 2 * rest ||
      (unit == 2 * rest && (tie == .up || lower % 2 == 1))
    some ⟨if up then lower + 1 else lower, g⟩
  else if lowerHits then some ⟨lower, g⟩
  else if upperHits then some ⟨lower + 1, g⟩
  else none

/-- The same value without trailing zeros among the digits. -/
def Scaled.trim : Nat → Scaled → Scaled
  | 0, d => d
  | fuel + 1, d =>
    if d.digits ≠ 0 ∧ d.digits % 10 = 0 then
      Scaled.trim fuel ⟨d.digits / 10, d.exponent + 1⟩
    else d

/-- Seventeen digits always suffice. -/
def maxDigits : Nat := 17

/-- The shortest decimal of a positive dyadic. -/
def shortest (tie : Tie) (d : Dyadic) : Scaled :=
  let r := ReadBack.ofDyadic d
  let top := r.magnitude
  let grids := (List.range maxDigits).map fun (n : Nat) => top - 1 - (n : Int)
  match grids.findSome? (r.hit? tie) with
  | some hit => hit.trim maxDigits
  | none => ⟨0, 0⟩

/-- Digits with a point where it belongs, and zeros to reach it. -/
def positional (d : Scaled) : String :=
  let digits := natText d.digits
  if 0 ≤ d.exponent then digits ++ String.ofList (List.replicate d.exponent.toNat '0')
  else
    let places := (-d.exponent).toNat
    if places < digits.length then
      let cs := digits.toList
      let whole := digits.length - places
      String.ofList (cs.take whole) ++ "." ++ String.ofList (cs.drop whole)
    else
      "0." ++ String.ofList (List.replicate (places - digits.length) '0') ++ digits

/-- The texts of a number with its sign in front. -/
def signed (negative : Bool) (text : String) : String :=
  if negative then "-" ++ text else text

/-- The shortest decimal, never with an exponent: `0.1`, `-0`,
`100000000000000000000000`, `inf`, `NaN`. -/
def display (x : Float) : String :=
  match FloatValue.ofFloat x with
  | .undefined => "NaN"
  | .infinite negative => signed negative "inf"
  | .finite d =>
    signed d.negative (if d.mantissa = 0 then "0" else positional (shortest .up d))

end Decimal

end Univariate
