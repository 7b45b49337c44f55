import Univariate.Decimal.Reader
import Univariate.Error
import Univariate.Text.Alphabetic
import Univariate.Text.Bytes

/-!
# From characters to tokens

A text is read word by word.  Four characters are spacing and separate
words; an operator or a parenthesis is a word by itself; digits and dots
run on as long as they can, so that `1.2.3` is one bad number and not two
good ones, and take an exponent along if digits follow its mark; a letter
or an underscore starts a name.  The only name that is a token is that of
the declared variable.

* `Token.scan` — the token at the front of a text, and how many
  characters it takes beyond its first;
* `Token.lex` — the tokens of a text up to its end or to the first
  failure.
-/

namespace Univariate

namespace Token

/-- Spacing between words: blank, tabulator, line feed and carriage
return. -/
def isSpacing (c : Char) : Bool :=
  c == ' ' || c == '\t' || c == '\n' || c == '\r'

/-- A name starts with a letter of any script or an underscore. -/
def startsName (c : Char) : Bool := Text.isAlphabetic c || c == '_'

/-- A name goes on with letters, underscores and basic digits. -/
def continuesName (c : Char) : Bool := startsName c || Decimal.isDigit c

/-- A digit or the decimal point. -/
def isMantissa (c : Char) : Bool := Decimal.isDigit c || c == '.'

/-- The length of an exponent at the front of a text, `0` if there is
none: a mark, perhaps a sign, and at least one digit. -/
def exponentLength : List Char → Nat
  | [] => 0
  | mark :: rest =>
    if mark == 'e' || mark == 'E' then
      let sign :=
        match rest with
        | '+' :: _ | '-' :: _ => 1
        | _ => 0
      let digits := ((rest.drop sign).takeWhile Decimal.isDigit).length
      if digits = 0 then 0 else 1 + sign + digits
    else 0

/-- The length of the number at the front of a text. -/
def numberLength (cs : List Char) : Nat :=
  let mantissa := (cs.takeWhile isMantissa).length
  mantissa + exponentLength (cs.drop mantissa)

/-- The number that a literal writes, if it is a finite one. -/
def literal? (word : List Char) : Option Float :=
  (Decimal.read? word).filter Float.isFinite

/-- The token at the front of the text `c :: cs`, which starts with no
spacing, and the number of characters of `cs` that belong to it. -/
def scan (name : List Char) (c : Char) (cs : List Char) :
    Except SyntaxFault (Token × Nat) :=
  match ofChar? c with
  | some token => .ok (token, 0)
  | none =>
    if isMantissa c then
      let length := numberLength (c :: cs)
      let word := (c :: cs).take length
      match literal? word with
      | some value => .ok (number value, length - 1)
      | none => .error (.badLiteral (String.ofList word))
    else if startsName c then
      let tail := cs.takeWhile continuesName
      if c :: tail = name then .ok (var, tail.length)
      else .error (.unknownName (String.ofList (c :: tail)) (String.ofList name))
    else .error (.strayCharacter c)

/-- The tokens of a text that starts at byte `position`, up to its end or
to the first failure. -/
def lexFrom (name : List Char) (position : Nat) :
    List Char → List Lexeme × Option Error
  | [] => ([], none)
  | c :: cs =>
    if isSpacing c then lexFrom name (position + c.utf8Size) cs
    else
      match scan name c cs with
      | .error fault => ([], some (.malformed position fault))
      | .ok (token, tail) =>
        let stop := position + Text.byteLength (c :: cs.take tail)
        let (rest, failure) := lexFrom name stop (cs.drop tail)
        (⟨position, token, stop⟩ :: rest, failure)
termination_by cs => cs.length
decreasing_by
  · exact Nat.lt_succ_self cs.length
  · simp only [List.length_drop, List.length_cons]
    omega

/-- The tokens of a text, in which `name` is the variable. -/
def lex (name text : String) : List Lexeme × Option Error :=
  lexFrom name.toList 0 text.toList

end Token

end Univariate
