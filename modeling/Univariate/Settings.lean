import Univariate.Error
import Univariate.Json.Decode
import Univariate.NormalForm.Expansion
import Univariate.Roots.Solution
import Univariate.Text.Alphabetic
import Univariate.Text.Numeric

/-!
# Settings

The name of the variable, the limit on the degree, and the policy of the
solver.  Each has a default, and a JSON text may set any of them.

* `Settings.validate` — the conditions that settings read from outside
  have to meet;
* `Settings.ofJsonText` — settings from a JSON text.
-/

namespace Univariate

/-- The name of the variable when none is configured. -/
def defaultVariable : String := "x"

/-- The policy of the solver when none is configured: a millionth, and
five hundred sweeps. -/
def SolverSettings.default : SolverSettings Float :=
  ⟨Float.ofScientific 1 true 6, 500⟩

/-- Everything that can be configured. -/
structure Settings where
  /-- The name of the one variable. -/
  name : String
  /-- The highest degree that expanding may produce. -/
  maxDegree : Nat
  solver : SolverSettings Float

namespace Settings

/-- Nothing is configured. -/
def default : Settings := ⟨defaultVariable, defaultMaxDegree, SolverSettings.default⟩

/-- Letters and numbers of any script, and the underscore. -/
def isNamePart (c : Char) : Bool :=
  Text.isAlphabetic c || Text.isNumeric c || c == '_'

/-- A name for the variable: letters, numbers and underscores, with no
number in front. -/
def isName : List Char → Bool
  | [] => false
  | c :: cs => (Text.isAlphabetic c || c == '_') && (c :: cs).all isNamePart

/-- A tolerance lies strictly between zero and one. -/
def isTolerance (x : Float) : Bool := Scalar.lt 0 x && Scalar.lt x 1

/-- Refuses settings that cannot be used: a name that is none, a
tolerance out of range, no iterations at all. -/
def validate (s : Settings) : Except Error Unit :=
  if !isName s.name.toList then .error (.settings (.badVariable s.name))
  else if !isTolerance s.solver.rootTolerance then
    .error (.settings (.badTolerance s.solver.rootTolerance))
  else if s.solver.maxIterations = 0 then .error (.settings .noIterations)
  else .ok ()

/-- The names of the solver's fields. -/
def solverFieldNames : List String := ["root_tolerance", "max_iterations"]

/-- The names of the fields. -/
def fieldNames : List String := ["variable", "max_degree", "solver"]

/-- The largest limit on the degree. -/
def largestMaxDegree : Nat := Nat.pow 2 32 - 1

/-- The policy of the solver from a JSON value. -/
def solverOfJson? (v : Json) : Option (SolverSettings Float) := do
  match ← v.fields? solverFieldNames with
  | [tolerance, iterations] =>
    return ⟨← tolerance.orElse SolverSettings.default.rootTolerance Json.toFloat?,
      ← iterations.orElse SolverSettings.default.maxIterations
        (Json.toNat? Json.maxWord)⟩
  | _ => none

/-- Settings from a JSON value. -/
def ofJson? (v : Json) : Option Settings := do
  match ← v.fields? fieldNames with
  | [name, maxDegree, solver] =>
    return ⟨← name.orElse default.name Json.toText?,
      ← maxDegree.orElse default.maxDegree (Json.toNat? largestMaxDegree),
      ← solver.orElse default.solver solverOfJson?⟩
  | _ => none

/-- Valid settings from a JSON text. -/
def ofJsonText (text : String) : Except Error Settings :=
  match (Json.parse? text).bind ofJson? with
  | none => .error (.settings .undecodable)
  | some s => do
    s.validate
    return s

end Settings

end Univariate
