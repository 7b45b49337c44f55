import Univariate.Cplx
import Univariate.Decimal.Fixed
import Univariate.Scalar.Float

/-!
# Numbers as shown in results

A number that is as good as an integer is shown as one; any other with up
to six decimals and no trailing zeros.  Zero never has a sign.

* `Display.real` — a real number;
* `Display.complex` — a complex number: `1`, `2i`, `-i`, `1 + 2i`,
  `0.5 - 1.5i`.
-/

namespace Univariate

namespace Display

/-- Decimals kept when a number is not as good as an integer. -/
def places : Nat := 6

/-- Relative distance from an integer up to which a number is shown as
that integer. -/
def integerTolerance : Float := Float.ofScientific 1 true 9

/-- The closest integer, a half going away from zero; what is not a
finite number stays as it is. -/
def round (x : Float) : Float :=
  match FloatValue.ofFloat x with
  | .finite d =>
    let n := Float.ofNat d.nearestNat
    if d.negative then -n else n
  | _ => x

/-- Without trailing zeros, and without a point that nothing follows. -/
def dropTrailing (text : List Char) : List Char :=
  ((text.reverse.dropWhile (· == '0')).dropWhile (· == '.')).reverse

/-- A real number. -/
def real (x : Float) : String :=
  let nearest := round x
  if (x - nearest).abs ≤ integerTolerance * Scalar.max x.abs 1 then
    if nearest == 0 then "0" else Decimal.display nearest
  else
    let text := String.ofList (dropTrailing (Decimal.fixed places x).toList)
    if text = "-0" then "0" else text

/-- A complex number.  A part that is shown as zero is left out. -/
def complex (z : Cplx Float) : String :=
  let re := real z.re
  if real z.im = "0" then re
  else
    let magnitude := real z.im.abs
    let imaginary := if magnitude = "1" then "i" else magnitude ++ "i"
    let negative := decide (z.im < 0)
    if re = "0" then
      if negative then "-" ++ imaginary else imaginary
    else if negative then re ++ " - " ++ imaginary
    else re ++ " + " ++ imaginary

end Display

end Univariate
