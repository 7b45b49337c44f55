import Univariate.Error
import Univariate.Expr
import Univariate.Scalar.Float
import Univariate.Text.Blank
import Univariate.Token.Lexer

/-!
# From tokens to expressions

Sums and products associate to the left, powers to the right; a product
may do without its sign (`3x`, `2(x + 1)`), but then its right operand
does not start with one, so `2 -x` is a difference.  A minus in front of
an operand binds weaker than a power and stronger than a product.  An
exponent may carry minus signs of its own, holds no variable, and has to
come out as a natural number below `2^32`.

The parser is a machine with a stack.  A `Frame` is an operator that
waits for its right operand, or an open parenthesis; a `Stage` says what
the next token may be.  One token is one step, and nothing is looked at
twice:

* `Frame.close` — an operator receives its right operand.  Only a power
  can refuse it;
* `unwind` — a run of operators is closed that bind at least as tightly
  as the token that has arrived.  A power is therefore closed when the
  token *after* its exponent arrives, and fails there;
* `Stage.step`, `Stage.finish` — one token, and the end of the text;
* `Expr.ofLexemes`, `Expr.parse` — a whole text.
-/

namespace Univariate

/-- The two signs of a sum. -/
inductive SumSign where
  | plus
  | minus
deriving DecidableEq, Repr

/-- The ways to write a product or quotient. -/
inductive ProductSign where
  | times
  | over
  /-- Two operands side by side. -/
  | adjacent
deriving DecidableEq, Repr

/-- What waits on the stack for an operand to its right. -/
inductive Frame where
  /-- A base and the position of its caret. -/
  | power (base : Expr Float) (caret : Nat)
  /-- A minus in front of an exponent. -/
  | exponentMinus
  /-- A minus in front of an operand. -/
  | minus
  | product (left : Expr Float) (sign : ProductSign)
  | sum (left : Expr Float) (sign : SumSign)
  | paren

/-- How tightly a frame binds. -/
inductive Level where
  | power
  | product
  | sum
  | paren
deriving DecidableEq, Repr

namespace Level

/-- Tighter levels come first. -/
def rank : Level → Nat
  | power => 0
  | product => 1
  | sum => 2
  | paren => 3

end Level

/-- The level of a frame. -/
def Frame.level : Frame → Level
  | power .. | exponentMinus => .power
  | minus | product .. => .product
  | sum .. => .sum
  | paren => .paren

/-- The largest exponent. -/
def maxExponent : Nat := Nat.pow 2 32 - 1

namespace Expr

/-- The natural number that an exponent comes out as; `caret` is the
position that a failure names. -/
def exponentOf (exponent : Expr Float) (caret : Nat) : Except Error Nat :=
  if exponent.mentionsVariable then
    .error (.notPolynomial (.variableInExponent caret))
  else
    let value := exponent.constantValue?.getD Binary64.nan
    match FloatValue.ofFloat value with
    | .undefined | .infinite _ => .error (.domain (.fractionalExponent caret value))
    | .finite d =>
      match d.toInt? with
      | none => .error (.domain (.fractionalExponent caret value))
      | some n =>
        if n < 0 then .error (.domain (.negativeExponent caret value))
        else if (maxExponent : Int) < n then .error (.domain (.hugeExponent caret))
        else .ok n.toNat

end Expr

/-- A frame receives its right operand. -/
def Frame.close : Frame → Expr Float → Except Error (Expr Float)
  | power base caret, exponent => do
    return .pow base (← exponent.exponentOf caret)
  | exponentMinus, e => .ok (.neg e)
  | minus, e => .ok (.neg e)
  | product left .over, e => .ok (.div left e)
  | product left _, e => .ok (.mul left e)
  | sum left .plus, e => .ok (.add left e)
  | sum left .minus, e => .ok (.sub left e)
  | paren, e => .ok e

/-- Closes the frames on top of the stack down to the first one that
binds more loosely than `level`. -/
def unwind (level : Level) :
    List Frame → Expr Float → Except Error (List Frame × Expr Float)
  | [], e => .ok ([], e)
  | frame :: below, e =>
    if frame.level.rank ≤ level.rank then do
      let e ← frame.close e
      unwind level below e
    else .ok (frame :: below, e)

/-- What has been read, and what may come next. -/
inductive Stage where
  /-- An operand has to start here, perhaps with signs. -/
  | operand (stack : List Frame)
  /-- An exponent has to start here, perhaps with minus signs. -/
  | exponent (stack : List Frame)
  /-- A number, the variable or a closed parenthesis has been read. -/
  | atom (stack : List Frame) (value : Expr Float)

namespace Stage

/-- Nothing has been read. -/
def start : Stage := operand []

/-- The token cannot stand here. -/
def refuse (lexeme : Lexeme) : Except Error Stage :=
  .error (.malformed lexeme.start (.unexpectedToken lexeme.token))

/-- The operands on both sides of a sign of a sum. -/
def pushSum (stack : List Frame) (value : Expr Float) (sign : SumSign) :
    Except Error Stage := do
  let (stack, left) ← unwind .sum stack value
  return operand (.sum left sign :: stack)

/-- The stack on which the right operand of a product is read. -/
def pushProduct (stack : List Frame) (value : Expr Float) (sign : ProductSign) :
    Except Error (List Frame) := do
  let (stack, left) ← unwind .product stack value
  return .product left sign :: stack

/-- One token. -/
def step : Stage → Lexeme → Except Error Stage
  | operand stack, lexeme =>
    match lexeme.token with
    | .number value => .ok (atom stack (.const value))
    | .var => .ok (atom stack .var)
    | .openParen => .ok (operand (.paren :: stack))
    | .minus => .ok (operand (.minus :: stack))
    | .plus => .ok (operand stack)
    | _ => refuse lexeme
  | exponent stack, lexeme =>
    match lexeme.token with
    | .number value => .ok (atom stack (.const value))
    | .var => .ok (atom stack .var)
    | .openParen => .ok (operand (.paren :: stack))
    | .minus => .ok (exponent (.exponentMinus :: stack))
    | _ => refuse lexeme
  | atom stack value, lexeme =>
    match lexeme.token with
    | .caret => .ok (exponent (.power value lexeme.start :: stack))
    | .plus => pushSum stack value .plus
    | .minus => pushSum stack value .minus
    | .star => operand <$> pushProduct stack value .times
    | .slash => operand <$> pushProduct stack value .over
    | .number right => do
      return atom (← pushProduct stack value .adjacent) (.const right)
    | .var => do
      return atom (← pushProduct stack value .adjacent) .var
    | .openParen => do
      return operand (.paren :: (← pushProduct stack value .adjacent))
    | .closeParen => do
      match ← unwind .sum stack value with
      | (.paren :: below, inner) => return atom below inner
      | _ => refuse lexeme

/-- The end of the text, whose last token stops at byte `stop`. -/
def finish (stop : Nat) : Stage → Except Error (Expr Float)
  | atom stack value => do
    match ← unwind .sum stack value with
    | ([], e) => return e
    | _ => .error (.malformed stop .unexpectedEnd)
  | _ => .error (.malformed stop .unexpectedEnd)

end Stage

namespace Expr

/-- Where the last token stops, `0` without tokens. -/
def lastStop (lexemes : List Lexeme) : Nat :=
  (lexemes.getLast?.map Lexeme.stop).getD 0

/-- The expression that a list of tokens writes.  If the list was cut
short by a failure of the lexer, the failure counts once all tokens
before it have been taken. -/
def ofLexemes (lexemes : List Lexeme) (failure : Option Error) :
    Except Error (Expr Float) := do
  let stage ← lexemes.foldlM Stage.step .start
  match failure with
  | some error => .error error
  | none => stage.finish (lastStop lexemes)

/-- Byte offsets of the open parentheses that wait for their partner,
the innermost first, after a text that starts at `position`; or the
offset of the first closing parenthesis that has none. -/
def openParens (position : Nat) (waiting : List Nat) :
    List Char → Except Nat (List Nat)
  | [] => .ok waiting
  | c :: cs =>
    let next := position + c.utf8Size
    if c = '(' then openParens next (position :: waiting) cs
    else if c = ')' then
      match waiting with
      | [] => .error position
      | _ :: outer => openParens next outer cs
    else openParens next waiting cs

/-- Refuses a text with a parenthesis that has no partner. -/
def checkParens (text : List Char) : Except Error Unit :=
  match openParens 0 [] text with
  | .error position => .error (.malformed position .unmatchedClose)
  | .ok [] => .ok ()
  | .ok (position :: _) => .error (.malformed position .unmatchedOpen)

/-- The expression that a text writes, in which `name` is the
variable. -/
def parse (name text : String) : Except Error (Expr Float) := do
  if (Text.trim text.toList).isEmpty then
    .error (.malformed 0 .empty)
  checkParens text.toList
  let (lexemes, failure) := Token.lex name text
  ofLexemes lexemes failure

end Expr

end Univariate
