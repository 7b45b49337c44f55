import Univariate.Json.Scanner

/-!
# Reading JSON

A value is put together word by word, by a machine with a stack of the
arrays and objects that are still open.  The text is read to its end:
nothing but spacing may follow the value.

* `Json.Stage.step` — one word;
* `Json.parse?` — a whole text.
-/

namespace Univariate

namespace Json

/-- Members of an object, the last one first. -/
abbrev Members := List (List Piece × Json)

/-- An array or object that is still open, with what it holds so far, the
last element first. -/
inductive Frame where
  | items (before : List Json)
  /-- The value of `key` is being read. -/
  | member (before : Members) (key : List Piece)

/-- What has been read, and what may come next. -/
inductive Stage where
  /-- A value. -/
  | value (stack : List Frame)
  /-- The first item of an array, or its end. -/
  | firstItem (stack : List Frame)
  /-- The first key of an object, or its end. -/
  | firstKey (stack : List Frame)
  /-- A further key. -/
  | furtherKey (before : Members) (stack : List Frame)
  /-- The colon after a key. -/
  | afterKey (before : Members) (key : List Piece) (stack : List Frame)
  /-- A comma, or the end of the array. -/
  | afterItem (before : List Json) (stack : List Frame)
  /-- A comma, or the end of the object. -/
  | afterMember (before : Members) (stack : List Frame)
  /-- Nothing. -/
  | finished (value : Json)

namespace Stage

/-- A value has been read: it goes where the stack says. -/
def deliver (v : Json) : List Frame → Stage
  | [] => finished v
  | .items before :: stack => afterItem (v :: before) stack
  | .member before key :: stack => afterMember ((key, v) :: before) stack

/-- A value starts with this word. -/
def beginValue (stack : List Frame) : Token → Option Stage
  | .null => some (deliver .null stack)
  | .bool b => some (deliver (.bool b) stack)
  | .number literal => some (deliver (.number literal) stack)
  | .text pieces => some (deliver (.text pieces) stack)
  | .openBracket => some (firstItem stack)
  | .openBrace => some (firstKey stack)
  | _ => none

/-- One word. -/
def step : Stage → Token → Option Stage
  | value stack, token => beginValue stack token
  | firstItem stack, .closeBracket => some (deliver (.array []) stack)
  | firstItem stack, token => beginValue (.items [] :: stack) token
  | firstKey stack, .closeBrace => some (deliver (.object []) stack)
  | firstKey stack, .text pieces => some (afterKey [] pieces stack)
  | furtherKey before stack, .text pieces => some (afterKey before pieces stack)
  | afterKey before key stack, .colon => some (value (.member before key :: stack))
  | afterItem before stack, .comma => some (value (.items before :: stack))
  | afterItem before stack, .closeBracket =>
    some (deliver (.array before.reverse) stack)
  | afterMember before stack, .comma => some (furtherKey before stack)
  | afterMember before stack, .closeBrace =>
    some (deliver (.object before.reverse) stack)
  | _, _ => none

/-- The value, if it is complete. -/
def result? : Stage → Option Json
  | finished v => some v
  | _ => none

end Stage

/-- The value that a text writes. -/
def parse? (text : String) : Option Json := do
  let tokens ← scan text.toList
  let stage ← tokens.foldlM Stage.step (.value [])
  stage.result?

end Json

end Univariate
