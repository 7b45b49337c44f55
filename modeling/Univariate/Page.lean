import Univariate.Chart.Json
import Univariate.Worksheet

/-!
# The functions of a page

A page in a browser asks for solutions and curves by text and gets JSON
texts back.  The settings are those of the last successful configuration.

* `Page.solve` — a response, or an error, as a JSON text;
* `Page.curve` — a chart;
* `Page.configure` — new settings.
-/

namespace Univariate

namespace Page

/-- An error as a JSON text. -/
def errorText (error : Error) : String :=
  (Json.ofFields
    [("error", .ofText error.userMessage), ("kind", .ofText error.kind.name)]).write

/-- The solution of a text. -/
def solve (settings : Settings) (text : String) : String :=
  match settings.respond ⟨text⟩ with
  | .ok response => response.toJsonText
  | .error error => errorText error

/-- The slot of the worksheet that curves are written into. -/
def curveSlot : String := "curve"

/-- The chart of a text, by a worksheet of its own. -/
def curve (settings : Settings) (text : String) : Except Error Chart := do
  let (_, samples) := (Worksheet.empty settings).samples curveSlot text
  return (← samples).toChart

/-- The chart of a text, or an error, as a JSON text. -/
def curveText (settings : Settings) (text : String) : String :=
  match curve settings text with
  | .ok chart => chart.toJson.write
  | .error error => errorText error

/-- The settings after an attempt to change them, and why it failed if it
did. -/
def configure (settings : Settings) (text : String) : Settings × Option Error :=
  match Settings.ofJsonText text with
  | .ok changed => (changed, none)
  | .error error => (settings, some error)

end Page

end Univariate
