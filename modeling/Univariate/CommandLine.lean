import Univariate.NormalForm.Render
import Univariate.Session

/-!
# The command line

The arguments make up one expression.  Its normal form is printed, then
its roots and its factorization; settings come as a JSON text from the
environment.

* `CommandLine.run` — everything that is printed, and the exit code.
-/

namespace Univariate

namespace CommandLine

/-- What a run leaves behind. -/
structure Output where
  code : Nat
  stdout : String
  stderr : String
deriving DecidableEq, Repr

/-- Lines, each with its end. -/
def unlines (lines : List String) : String := String.join (lines.map (· ++ "\n"))

/-- Shown when there is no expression. -/
def usage : List String :=
  ["usage: polyroot <expression>",
    "  e.g. polyroot \"x^2 - 3x + 2\"",
    "  settings: POLYROOT_CONFIG='\x7b\"variable\": \"t\"\x7d'"]

/-- A run that failed after it had printed some lines. -/
def failure (printed : List String) (error : Error) : Output :=
  ⟨1, unlines printed, unlines ["error: " ++ error.message]⟩

/-- What the view says about roots. -/
def rootsLine (name : String) (view : View) : String :=
  if view.identicallyZero then "identically zero: every value of " ++ name ++ " is a root"
  else
    match view.roots with
    | none | some [] => "roots: none"
    | some roots => "roots: " ++ ", ".intercalate roots

/-- What the view says about the factorization. -/
def factorizationLines (view : View) : List String :=
  match view.factorization with
  | none => []
  | some text => ["factorization: " ++ text]

/-- Solves one expression. -/
def solve (settings : Settings) (expression : String) : Output :=
  match settings.normalForm expression with
  | .error error => failure [] error
  | .ok polynomial =>
    let first := "polynomial: " ++ polynomial.render settings.name
    let submission :=
      (Session.start settings).submit (Session.localSolver settings) expression
    match submission.error with
    | some error => failure [first] error
    | none =>
      let view := submission.session.view
      ⟨0, unlines (first :: rootsLine settings.name view :: factorizationLines view), ""⟩

/-- The settings that the environment asks for. -/
def settingsOf : Option String → Except Error Settings
  | none => .ok .default
  | some text => Settings.ofJsonText text

/-- A run with the given arguments and settings. -/
def run (arguments : List String) (settings : Option String) : Output :=
  let expression := String.ofList (Text.trim (" ".intercalate arguments).toList)
  if expression.isEmpty then ⟨1, "", unlines usage⟩
  else
    match settingsOf settings with
    | .error error => failure [] error
    | .ok settings => solve settings expression

end CommandLine

end Univariate
