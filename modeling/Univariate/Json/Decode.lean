import Univariate.Decimal.Reader
import Univariate.Json.Reader

/-!
# Decoding records from JSON

A record is read from an object by the names of its fields, in any order,
other members being ignored; or from an array of its fields in the order
of their declaration, of which the last ones may be missing.  A field
that is named twice spoils the record, as does one of the wrong kind.

Numbers are read as their writers of long standing expect: sixty-four
bits of significant digits, later digits dropped, and one multiplication
or division by a power of ten, so that the result may be off by a unit in
the last place.

* `Json.fields?` — the fields of a record;
* `Field.orElse`, `Field.required`, `Field.optional` — what a field
  without a value means;
* `Json.toText?`, `Json.toNat?`, `Json.toFloat?` and others — the plain
  kinds.
-/

namespace Univariate

namespace Json

/-- What a record has for one of its fields. -/
inductive Field where
  | present (value : Json)
  /-- An object without that name. -/
  | absent
  /-- An array that ends before it. -/
  | cutOff

namespace Field

variable {β : Type}

/-- A field that may be missing. -/
def orElse (fallback : β) (decode : Json → Option β) : Field → Option β
  | present value => decode value
  | absent | cutOff => some fallback

/-- A field that may not be missing. -/
def required (decode : Json → Option β) : Field → Option β
  | present value => decode value
  | absent | cutOff => none

/-- A field that may be `null`, or missing from an object. -/
def optional (decode : Json → Option β) : Field → Option (Option β)
  | present .null => some none
  | present value => (decode value).map some
  | absent => some none
  | cutOff => none

end Field

/-- The values that the members of an object have for a key. -/
def valuesOf (key : String) (members : List (String × Json)) : List Json :=
  (members.filter (·.1 == key)).map Prod.snd

/-- The only value of a key. -/
def fieldOf? (members : List (String × Json)) (key : String) : Option Field :=
  match valuesOf key members with
  | [] => some .absent
  | [value] => some (.present value)
  | _ => none

/-- The members of an object with their keys read. -/
def readMembers? (members : List (List Piece × Json)) : Option (List (String × Json)) :=
  members.mapM fun (key, value) => (textOfPieces? key).map (·, value)

/-- The fields of a record with the given names, in that order. -/
def fields? (names : List String) : Json → Option (List Field)
  | object members => do
    let members ← readMembers? members
    names.mapM (fieldOf? members)
  | array items =>
    if names.length < items.length then none
    else
      some (items.map .present ++ List.replicate (names.length - items.length) .cutOff)
  | _ => none

/-- A text. -/
def toText? : Json → Option String
  | text pieces => textOfPieces? pieces
  | _ => none

/-- A truth value. -/
def toBool? : Json → Option Bool
  | bool b => some b
  | _ => none

/-- An array of which every item is decoded. -/
def toList? {β : Type} (decode : Json → Option β) : Json → Option (List β)
  | array items => items.mapM decode
  | _ => none

/-- The largest number of sixty-four bits. -/
def maxWord : Nat := Nat.pow 2 64 - 1

namespace Literal

/-- Written without point and exponent. -/
def isInteger (n : Literal) : Bool := n.fraction.isEmpty && n.exponent.isNone

/-- The magnitude of the digits in front of the point. -/
def wholeValue (n : Literal) : Nat := Decimal.ofDigits 0 n.whole

/-- The integer that is written, if it is a number of sixty-four bits,
with sign or without.  There is no negative zero among them. -/
def toInt? (n : Literal) : Option Int :=
  if n.isInteger then
    let m := n.wholeValue
    if n.negative then
      if m = 0 ∨ Nat.pow 2 63 < m then none else some (-(m : Int))
    else if maxWord < m then none
    else some m
  else none

/-- Takes digits while the significand stays within sixty-four bits: the
significand, and the digits from the first one on that did not fit. -/
def takeSignificant (m : Nat) : List Char → Nat × List Char
  | [] => (m, [])
  | c :: cs =>
    let next := 10 * m + Decimal.digitValue c
    if maxWord < next then (m, c :: cs) else takeSignificant next cs

/-- The significand and the power of ten before the exponent is counted.
Digits of the whole part that do not fit raise the power; digits of the
fraction that do not fit are dropped. -/
def significand (n : Literal) : Nat × Int :=
  let (m, lost) := takeSignificant 0 n.whole
  let (m', dropped) := takeSignificant m n.fraction
  (m', (lost.length : Int) - ((n.fraction.length - dropped.length : Nat) : Int))

/-- The largest power of ten in the range of the numbers. -/
def maxPower : Nat := 308

/-- A power of ten as a number. -/
def powerOfTen (e : Nat) : Float := Decimal.nearest 1 e

/-- The number `f · 10^e`, by powers of ten within the range; none if it
is too large.  Each round of `fuel` takes off the largest power. -/
def scaleByTen : Nat → Float → Int → Option Float
  | 0, f, _ => some f
  | fuel + 1, f, e =>
    if e.natAbs ≤ maxPower then
      if 0 ≤ e then
        let scaled := f * powerOfTen e.toNat
        if scaled.isInf then none else some scaled
      else some (f / powerOfTen e.natAbs)
    else if f == 0 then some f
    else if 0 ≤ e then none
    else scaleByTen fuel (f / powerOfTen maxPower) (e + maxPower)

/-- Rounds after which every number has become zero. -/
def scaleRounds : Nat := 4

/-- The largest exponent that is counted. -/
def maxExponent : Int := Nat.pow 2 31 - 1

/-- The power of ten with the written exponent counted in, held within
thirty-two bits; none if the exponent alone does not fit. -/
def totalPower? (power : Int) : Option (Bool × List Char) → Option Int
  | none => some power
  | some (negative, digits) =>
    let e : Int := Decimal.ofDigits 0 digits
    if maxExponent < e then none
    else
      let total := if negative then power - e else power + e
      some (min (max total (-maxExponent - 1)) maxExponent)

/-- The magnitude of a number with a point or an exponent. -/
def magnitude? (n : Literal) : Option Float :=
  let (m, power) := n.significand
  match totalPower? power n.exponent with
  | some e => scaleByTen scaleRounds (Float.ofNat m) e
  | none =>
    match n.exponent with
    | some (false, _) => if m = 0 then some 0 else none
    | _ => some 0

/-- The number that is written, if it is in range. -/
def toFloat? (n : Literal) : Option Float := do
  let magnitude ←
    if n.isInteger ∧ n.wholeValue ≤ maxWord then some (Float.ofNat n.wholeValue)
    else n.magnitude?
  return if n.negative then -magnitude else magnitude

end Literal

/-- An integer. -/
def toInt? : Json → Option Int
  | number literal => literal.toInt?
  | _ => none

/-- A natural number up to `largest`. -/
def toNat? (largest : Nat) (v : Json) : Option Nat := do
  let n ← v.toInt?
  if 0 ≤ n ∧ n ≤ largest then some n.toNat else none

/-- A number. -/
def toFloat? : Json → Option Float
  | number literal => literal.toFloat?
  | _ => none

end Json

end Univariate
