import Univariate.Expr.Parser
import Univariate.Json.Decode
import Univariate.Json.Writer
import Univariate.Settings

/-!
# Requests to a solver and its responses

A request holds the text of a polynomial.  A response holds the texts of
the roots and of the factorization, and a flag for the polynomial of
which every value is a root; the flag is left out when it is not set, and
what a response lacks has a default.

* `Response.ofSolution` — the texts of a solution;
* `Response.ofJsonText` — a response as it comes from a collaborator; any
  other text is a failure of transport;
* `Settings.respond` — the answer of the solver of this library.
-/

namespace Univariate

/-- A question to a solver. -/
structure Request where
  polynomial : String
deriving DecidableEq, Repr

/-- The answer of a solver. -/
structure Response where
  roots : List String
  factorization : String
  /-- Every value is a root, as opposed to none. -/
  identicallyZero : Bool
deriving DecidableEq, Repr

namespace Request

/-- A request as a JSON value. -/
def toJson (r : Request) : Json := .ofFields [("polynomial", .ofText r.polynomial)]

/-- A request as a JSON text. -/
def toJsonText (r : Request) : String := r.toJson.write

/-- A request from a JSON value. -/
def ofJson? (v : Json) : Option Request := do
  match ← v.fields? ["polynomial"] with
  | [polynomial] => return ⟨← polynomial.required Json.toText?⟩
  | _ => none

/-- A request from a JSON text. -/
def ofJsonText? (text : String) : Option Request := (Json.parse? text).bind ofJson?

end Request

namespace Response

/-- Shown in place of a factorization that a response lacks. -/
def missingFactorization : String := "N/A"

/-- The texts of a solution. -/
def ofSolution (s : Solution Float) (name : String) : Response :=
  ⟨s.rootTexts, s.factorizationText name, s.isIdenticallyZero⟩

/-- A response as a JSON value. -/
def toJson (r : Response) : Json :=
  .ofFields <|
    [("roots", .ofTexts r.roots), ("factorization", .ofText r.factorization)] ++
      if r.identicallyZero then [("identically_zero", .bool true)] else []

/-- A response as a JSON text. -/
def toJsonText (r : Response) : String := r.toJson.write

/-- The names of a response's fields. -/
def fieldNames : List String := ["roots", "factorization", "identically_zero"]

/-- A response from a JSON value. -/
def ofJson? (v : Json) : Option Response := do
  match ← v.fields? fieldNames with
  | [roots, factorization, identicallyZero] =>
    return ⟨← roots.orElse [] (Json.toList? Json.toText?),
      ← factorization.orElse missingFactorization Json.toText?,
      ← identicallyZero.orElse false Json.toBool?⟩
  | _ => none

/-- A response from a JSON text. -/
def ofJsonText (text : String) : Except Error Response :=
  match (Json.parse? text).bind ofJson? with
  | some r => .ok r
  | none => .error (.transport .malformedResponse)

end Response

namespace Settings

/-- The expression that a text writes. -/
def parse (s : Settings) (text : String) : Except Error (Expr Float) :=
  Expr.parse s.name text

/-- The normal form of the polynomial that a text writes. -/
def normalForm (s : Settings) (text : String) : Except Error (NormalForm Float) := do
  (← s.parse text).normalize s.maxDegree

/-- The solution of the polynomial that a text writes. -/
def solve (s : Settings) (text : String) : Except Error (Solution Float) := do
  Solution.ofNormalForm (← s.normalForm text) s.solver

/-- The answer to a request. -/
def respond (s : Settings) (request : Request) : Except Error Response := do
  return .ofSolution (← s.solve request.polynomial) s.name

end Settings

end Univariate
