import Univariate.Decimal.Reader
import Univariate.Json

/-!
# The words of a JSON text

Punctuation, the three names, numbers and texts, with spacing of four
characters between them.  A number has no superfluous zeros in front, and
digits on both sides of its point; a text holds no control characters.

* `Json.scanPieces`, `Json.scanNumber` — the two kinds of words that
  have an inside;
* `Json.scan` — all words of a text, or nothing if it has others.
-/

namespace Univariate

namespace Json

/-- A word. -/
inductive Token where
  | openBrace
  | closeBrace
  | openBracket
  | closeBracket
  | colon
  | comma
  | null
  | bool (value : Bool)
  | number (literal : Literal)
  | text (pieces : List Piece)

/-- The value of a hexadecimal digit. -/
def hexValue? (c : Char) : Option Nat :=
  if '0' ≤ c ∧ c ≤ '9' then some (c.toNat - '0'.toNat)
  else if 'a' ≤ c ∧ c ≤ 'f' then some (c.toNat - 'a'.toNat + 10)
  else if 'A' ≤ c ∧ c ≤ 'F' then some (c.toNat - 'A'.toNat + 10)
  else none

/-- The unit that four hexadecimal digits write. -/
def unitOfHex? (a b c d : Char) : Option Nat := do
  return (((← hexValue? a) * 16 + (← hexValue? b)) * 16 + (← hexValue? c)) * 16
    + (← hexValue? d)

/-- What stands for a character after a backslash. -/
def escaped? : Char → Option Char
  | '"' => some '"'
  | '\\' => some '\\'
  | '/' => some '/'
  | 'b' => some '\x08'
  | 'f' => some '\x0c'
  | 'n' => some '\n'
  | 'r' => some '\r'
  | 't' => some '\t'
  | _ => none

/-- The pieces of a text whose opening quote has been read, and what
follows its closing one. -/
def scanPieces : List Char → Option (List Piece × List Char)
  | [] => none
  | '"' :: rest => some ([], rest)
  | '\\' :: 'u' :: a :: b :: c :: d :: rest => do
    let code ← unitOfHex? a b c d
    let (pieces, rest) ← scanPieces rest
    return (.unit code :: pieces, rest)
  | '\\' :: e :: rest => do
    let c ← escaped? e
    let (pieces, rest) ← scanPieces rest
    return (.char c :: pieces, rest)
  | c :: rest =>
    if c = '\\' ∨ c.toNat < 0x20 then none
    else do
      let (pieces, rest) ← scanPieces rest
      return (.char c :: pieces, rest)

/-- The digits in front of the point: zero alone, or a run that starts
with another digit. -/
def scanWhole : List Char → Option (List Char × List Char)
  | '0' :: rest => some (['0'], rest)
  | cs =>
    let (digits, rest) := Decimal.spanDigits cs
    if digits = [] then none else some (digits, rest)

/-- A point and the digits after it, if there is one. -/
def scanFraction : List Char → Option (List Char × List Char)
  | '.' :: cs =>
    let (digits, rest) := Decimal.spanDigits cs
    if digits = [] then none else some (digits, rest)
  | cs => some ([], cs)

/-- The sign of an exponent, and what follows. -/
def scanSign : List Char → Bool × List Char
  | '-' :: rest => (true, rest)
  | '+' :: rest => (false, rest)
  | rest => (false, rest)

/-- An exponent, if there is one. -/
def scanExponent : List Char → Option (Option (Bool × List Char) × List Char)
  | [] => some (none, [])
  | mark :: cs =>
    if mark = 'e' ∨ mark = 'E' then
      let (negative, cs) := scanSign cs
      let (digits, rest) := Decimal.spanDigits cs
      if digits = [] then none else some (some (negative, digits), rest)
    else some (none, mark :: cs)

/-- A number without its sign. -/
def scanMagnitude (negative : Bool) (cs : List Char) : Option (Literal × List Char) := do
  let (whole, rest) ← scanWhole cs
  let (fraction, rest) ← scanFraction rest
  let (exponent, rest) ← scanExponent rest
  return (⟨negative, whole, fraction, exponent⟩, rest)

/-- A number. -/
def scanNumber : List Char → Option (Literal × List Char)
  | '-' :: cs => scanMagnitude true cs
  | cs => scanMagnitude false cs

/-- Spacing between words. -/
def isSpacing (c : Char) : Bool :=
  c == ' ' || c == '\t' || c == '\n' || c == '\r'

/-- The word at the front of a text, and what follows. -/
def scanToken : List Char → Option (Token × List Char)
  | '{' :: rest => some (.openBrace, rest)
  | '}' :: rest => some (.closeBrace, rest)
  | '[' :: rest => some (.openBracket, rest)
  | ']' :: rest => some (.closeBracket, rest)
  | ':' :: rest => some (.colon, rest)
  | ',' :: rest => some (.comma, rest)
  | 'n' :: 'u' :: 'l' :: 'l' :: rest => some (.null, rest)
  | 't' :: 'r' :: 'u' :: 'e' :: rest => some (.bool true, rest)
  | 'f' :: 'a' :: 'l' :: 's' :: 'e' :: rest => some (.bool false, rest)
  | '"' :: rest => do
    let (pieces, rest) ← scanPieces rest
    return (.text pieces, rest)
  | cs => do
    let (literal, rest) ← scanNumber cs
    return (.number literal, rest)

/-- At most `fuel` words and spacings. -/
def scanWithin : Nat → List Char → Option (List Token)
  | _, [] => some []
  | 0, _ :: _ => none
  | fuel + 1, c :: cs =>
    if isSpacing c then scanWithin fuel cs
    else do
      let (token, rest) ← scanToken (c :: cs)
      return token :: (← scanWithin fuel rest)

/-- All words of a text.  No word is empty, so there are at most as many
as characters. -/
def scan (text : List Char) : Option (List Token) := scanWithin text.length text

end Json

end Univariate
