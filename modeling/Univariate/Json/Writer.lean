import Univariate.Decimal.Shortest
import Univariate.Json

/-!
# Writing JSON

The compact form: no spacing, members in their order, and only those
characters escaped that have to be.  Five control characters have short
escapes, the others are written with four hexadecimal digits.

A number is written with the shortest digits that read back; between
`1e-5` and `1e16` positionally, with one decimal at least, and beyond
that with an exponent.  Infinite and undefined numbers become `null`.

* `Json.write` — the text of a value;
* `Json.ofFloat` — a number as a value.
-/

namespace Univariate

namespace Json

/-- A hexadecimal digit in small letters. -/
def hexDigit (n : Nat) : Char := Nat.digitChar (n % 16)

/-- The escape of a unit of sixteen bits. -/
def escapeUnit (code : Nat) : List Char :=
  ['\\', 'u', hexDigit (code / 4096), hexDigit (code / 256), hexDigit (code / 16),
    hexDigit code]

/-- A character inside a text. -/
def escapeChar (c : Char) : List Char :=
  if c = '"' then ['\\', '"']
  else if c = '\\' then ['\\', '\\']
  else if c = '\x08' then ['\\', 'b']
  else if c = '\x0c' then ['\\', 'f']
  else if c = '\n' then ['\\', 'n']
  else if c = '\r' then ['\\', 'r']
  else if c = '\t' then ['\\', 't']
  else if c.toNat < 0x20 then escapeUnit c.toNat
  else [c]

/-- A piece inside a text. -/
def Piece.chars : Piece → List Char
  | char c => escapeChar c
  | unit code => escapeUnit code

/-- A text in quotes. -/
def quoted (pieces : List Piece) : List Char :=
  '"' :: pieces.flatMap Piece.chars ++ ['"']

/-- A number as it is written. -/
def Literal.chars (n : Literal) : List Char :=
  let point := if n.fraction = [] then [] else '.' :: n.fraction
  let exponent :=
    match n.exponent with
    | none => []
    | some (negative, digits) => 'e' :: (if negative then '-' :: digits else digits)
  (if n.negative then ['-'] else []) ++ n.whole ++ point ++ exponent

mutual

/-- A value in compact form. -/
def chars : Json → List Char
  | null => ['n', 'u', 'l', 'l']
  | bool true => ['t', 'r', 'u', 'e']
  | bool false => ['f', 'a', 'l', 's', 'e']
  | number literal => literal.chars
  | text pieces => quoted pieces
  | array [] => ['[', ']']
  | array (item :: items) => '[' :: (chars item ++ itemsChars items) ++ [']']
  | object [] => ['{', '}']
  | object (m :: members) => '{' :: (memberChars m ++ membersChars members) ++ ['}']

/-- Further items of an array, each after a comma. -/
def itemsChars : List Json → List Char
  | [] => []
  | item :: items => ',' :: (chars item ++ itemsChars items)

/-- A key and its value. -/
def memberChars : List Piece × Json → List Char
  | (key, value) => quoted key ++ ':' :: chars value

/-- Further members of an object, each after a comma. -/
def membersChars : List (List Piece × Json) → List Char
  | [] => []
  | m :: members => ',' :: (memberChars m ++ membersChars members)

end

/-- The text of a value. -/
def write (v : Json) : String := String.ofList v.chars

/-- Digits below which a number is written positionally. -/
def positionalDigits : Int := 16

/-- Zeros after the point from which on a number is written with an
exponent. -/
def leadingZeros : Int := 5

/-- The digits of a number laid out with a point, or with an exponent. -/
def layOut (negative : Bool) (d : Decimal.Scaled) : Literal :=
  let digits := Nat.toDigits 10 d.digits
  let point : Int := (digits.length : Int) + d.exponent
  let zeros (n : Int) := List.replicate n.toNat '0'
  if 0 ≤ d.exponent ∧ point ≤ positionalDigits then
    ⟨negative, digits ++ zeros d.exponent, ['0'], none⟩
  else if 0 < point ∧ point ≤ positionalDigits then
    ⟨negative, digits.take point.toNat, digits.drop point.toNat, none⟩
  else if -leadingZeros < point ∧ point ≤ 0 then
    ⟨negative, ['0'], zeros (-point) ++ digits, none⟩
  else
    ⟨negative, digits.take 1, digits.drop 1,
      some (decide (point - 1 < 0), Nat.toDigits 10 (point - 1).natAbs)⟩

/-- A number as a value. -/
def ofFloat (x : Float) : Json :=
  match FloatValue.ofFloat x with
  | .finite d =>
    if d.mantissa = 0 then .number ⟨d.negative, ['0'], ['0'], none⟩
    else .number (layOut d.negative (Decimal.shortest .even d))
  | _ => .null

end Json

end Univariate
