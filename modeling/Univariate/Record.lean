import Univariate.Json.Decode
import Univariate.Json.Writer

/-!
# Results and their records

A `Result` is what is on display; a `Record` is what the logs keep of it.
A record may also be of an equation for which no result was shown.

* `Result.record` — the record of a result;
* `Result.toJson`, `Record.toJson` and their inverses — both as JSON.
-/

namespace Univariate

/-- An equation with the result that was shown for it, if there was
one. -/
structure Record where
  equation : String
  roots : Option (List String)
  factorization : Option String
  identicallyZero : Bool
deriving DecidableEq, Repr

/-- An equation with the result on display. -/
structure Result where
  equation : String
  roots : List String
  factorization : String
  /-- Every value is a root, as opposed to none. -/
  identicallyZero : Bool
deriving DecidableEq, Repr

/-- The names of the fields of both. -/
def Record.fieldNames : List String :=
  ["equation", "roots", "factorization", "identically_zero"]

/-- A value that may be missing. -/
def Json.ofOption {β : Type} (encode : β → Json) : Option β → Json
  | none => .null
  | some b => encode b

namespace Record

/-- The record of an equation without a result. -/
def ofEquation (equation : String) : Record := ⟨equation, none, none, false⟩

/-- A record as a JSON value. -/
def toJson (r : Record) : Json :=
  .ofFields
    [("equation", .ofText r.equation),
      ("roots", .ofOption .ofTexts r.roots),
      ("factorization", .ofOption .ofText r.factorization),
      ("identically_zero", .bool r.identicallyZero)]

/-- A record as a JSON text. -/
def toJsonText (r : Record) : String := r.toJson.write

/-- A record from a JSON value. -/
def ofJson? (v : Json) : Option Record := do
  match ← v.fields? fieldNames with
  | [equation, roots, factorization, identicallyZero] =>
    return ⟨← equation.required Json.toText?,
      ← roots.optional (Json.toList? Json.toText?),
      ← factorization.optional Json.toText?,
      ← identicallyZero.orElse false Json.toBool?⟩
  | _ => none

/-- A record from a JSON text. -/
def ofJsonText? (text : String) : Option Record := (Json.parse? text).bind ofJson?

end Record

namespace Result

/-- The record of a result. -/
def record (r : Result) : Record :=
  ⟨r.equation, some r.roots, some r.factorization, r.identicallyZero⟩

/-- A result as a JSON value. -/
def toJson (r : Result) : Json :=
  .ofFields
    [("equation", .ofText r.equation),
      ("roots", .ofTexts r.roots),
      ("factorization", .ofText r.factorization),
      ("identically_zero", .bool r.identicallyZero)]

/-- A result as a JSON text. -/
def toJsonText (r : Result) : String := r.toJson.write

/-- A result from a JSON value. -/
def ofJson? (v : Json) : Option Result := do
  match ← v.fields? Record.fieldNames with
  | [equation, roots, factorization, identicallyZero] =>
    return ⟨← equation.required Json.toText?,
      ← roots.required (Json.toList? Json.toText?),
      ← factorization.required Json.toText?,
      ← identicallyZero.required Json.toBool?⟩
  | _ => none

/-- A result from a JSON text. -/
def ofJsonText? (text : String) : Option Result := (Json.parse? text).bind ofJson?

end Result

end Univariate
