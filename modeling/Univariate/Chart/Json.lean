import Univariate.Chart
import Univariate.Json.Decode
import Univariate.Json.Writer

/-!
# Charts as JSON

`{"labels": [x, …], "datasets": [{"data": [y, …]}]}`.  An ordinate that
is not a finite number is written as `null`.
-/

namespace Univariate

namespace Chart

/-- The names of a chart's fields. -/
def fieldNames : List String := ["labels", "datasets"]

/-- The name of the only field of a series. -/
def seriesFieldNames : List String := ["data"]

/-- A series as a JSON value. -/
def seriesJson (values : List Float) : Json :=
  .ofFields [("data", .array (values.map .ofFloat))]

/-- A chart as a JSON value. -/
def toJson (c : Chart) : Json :=
  .ofFields
    [("labels", .array (c.labels.map .ofInt)),
      ("datasets", .array (c.series.map seriesJson))]

/-- An abscissa is an integer of sixty-four bits with a sign. -/
def label? (v : Json) : Option Int := do
  let n ← v.toInt?
  if n < Nat.pow 2 63 then some n else none

/-- The values of a series. -/
def series? (v : Json) : Option (List Float) := do
  match ← v.fields? seriesFieldNames with
  | [data] => data.required (Json.toList? Json.toFloat?)
  | _ => none

/-- A chart from a JSON value. -/
def ofJson? (v : Json) : Option Chart := do
  match ← v.fields? fieldNames with
  | [labels, datasets] =>
    return ⟨← labels.required (Json.toList? label?),
      ← datasets.required (Json.toList? series?)⟩
  | _ => none

end Chart

end Univariate
