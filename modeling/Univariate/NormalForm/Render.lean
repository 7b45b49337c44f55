import Univariate.Display
import Univariate.NormalForm

/-!
# Writing a normal form

`x^2 - 3x + 2`: highest degree first, signs between the terms, a
coefficient of one left out in front of the variable.
-/

namespace Univariate

namespace NormalForm

/-- The sign in front of a term: none in front of a first positive one. -/
def signText (first negative : Bool) : String :=
  match first, negative with
  | true, true => "-"
  | true, false => ""
  | false, true => " - "
  | false, false => " + "

/-- The variable of a term with its exponent. -/
def powerText (name : String) : Nat → String
  | 0 => ""
  | 1 => name
  | d => name ++ "^" ++ Decimal.natText d

/-- A term without its sign. -/
def termText (name : String) (degree : Nat) (c : Float) : String :=
  let coefficient := Display.real c.abs
  (if degree = 0 || coefficient ≠ "1" then coefficient else "") ++
    powerText name degree

/-- A polynomial in the given variable. -/
def render (p : NormalForm Float) (name : String) : String :=
  match p.terms with
  | [] => "0"
  | (d, c) :: rest =>
    signText true (c < 0) ++ termText name d c ++
      String.join (rest.map fun (d, c) => signText false (c < 0) ++ termText name d c)

end NormalForm

end Univariate
