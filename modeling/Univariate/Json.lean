/-!
# JSON values

A JSON value as it was written: numbers keep their digits, and texts keep
their escapes apart from their plain characters, because an escape may
name half of a character.  What a number or a text amounts to is asked
for separately, by whoever needs it.

* `Json.Piece` — a character, or a unit of sixteen bits;
* `Json.charsOfPieces?` — the characters of a text, unless a surrogate
  has no partner.
-/

namespace Univariate

namespace Json

/-- One element of a text. -/
inductive Piece where
  | char (c : Char)
  /-- Four hexadecimal digits: a character, or half of one. -/
  | unit (code : Nat)
deriving DecidableEq, Repr

/-- A number as it is written. -/
structure Literal where
  negative : Bool
  /-- The digits in front of the point. -/
  whole : List Char
  /-- The digits after the point; none without a point. -/
  fraction : List Char
  /-- Whether the exponent is negative, and its digits. -/
  exponent : Option (Bool × List Char)
deriving DecidableEq, Repr

/-- The first half of a character beyond the sixteen-bit ones. -/
def isHighSurrogate (n : Nat) : Bool := 0xD800 ≤ n && n < 0xDC00

/-- The second half of such a character. -/
def isLowSurrogate (n : Nat) : Bool := 0xDC00 ≤ n && n < 0xE000

/-- The character whose halves are given. -/
def joinSurrogates (high low : Nat) : Char :=
  Char.ofNat (0x10000 + (high - 0xD800) * 0x400 + (low - 0xDC00))

/-- The characters of a text.  Two halves in a row make one character; a
half by itself makes the text unreadable. -/
def charsOfPieces? : List Piece → Option (List Char)
  | [] => some []
  | .char c :: rest => (charsOfPieces? rest).map (c :: ·)
  | .unit n :: .unit m :: rest =>
    if isHighSurrogate n then
      if isLowSurrogate m then (charsOfPieces? rest).map (joinSurrogates n m :: ·)
      else none
    else if isLowSurrogate n then none
    else (charsOfPieces? (.unit m :: rest)).map (Char.ofNat n :: ·)
  | .unit n :: rest =>
    if isHighSurrogate n || isLowSurrogate n then none
    else (charsOfPieces? rest).map (Char.ofNat n :: ·)

/-- The text of some pieces, if it can be read. -/
def textOfPieces? (pieces : List Piece) : Option String :=
  (charsOfPieces? pieces).map String.ofList

/-- A text as pieces. -/
def piecesOfText (text : String) : List Piece := text.toList.map .char

end Json

/-- A JSON value. -/
inductive Json where
  | null
  | bool (value : Bool)
  | number (literal : Json.Literal)
  | text (pieces : List Json.Piece)
  | array (items : List Json)
  | object (members : List (List Json.Piece × Json))

namespace Json

/-- A readable text as a value. -/
def ofText (text : String) : Json := .text (piecesOfText text)

/-- Readable texts as an array. -/
def ofTexts (texts : List String) : Json := .array (texts.map ofText)

/-- An object with readable keys. -/
def ofFields (fields : List (String × Json)) : Json :=
  .object (fields.map fun (key, value) => (piecesOfText key, value))

/-- An integer as a value. -/
def ofInt (n : Int) : Json :=
  .number ⟨n < 0, Nat.toDigits 10 n.natAbs, [], none⟩

end Json

end Univariate
