import Univariate.Decimal.Shortest

/-!
# Tokens of an expression

The words of an expression: numbers, the one variable, parentheses and
five operators.  A `Lexeme` is a token with the bytes of the text that it
was read from.
-/

namespace Univariate

/-- A word of an expression. -/
inductive Token where
  /-- A number is never negative: signs are tokens of their own. -/
  | number (value : Float)
  /-- The declared variable, whatever its name is. -/
  | var
  | openParen
  | closeParen
  | plus
  | minus
  | star
  | slash
  | caret

namespace Token

/-- How a message names the token. -/
def describe : Token → String
  | number value => "number " ++ Decimal.display value
  | var => "variable"
  | openParen => "'('"
  | closeParen => "')'"
  | plus => "'+'"
  | minus => "'-'"
  | star => "'*'"
  | slash => "'/'"
  | caret => "'^'"

/-- The token that a character is by itself. -/
def ofChar? : Char → Option Token
  | '(' => some openParen
  | ')' => some closeParen
  | '+' => some plus
  | '-' => some minus
  | '*' => some star
  | '/' => some slash
  | '^' => some caret
  | _ => none

end Token

/-- A token and where it stands: from byte `start` of the text up to but
not including byte `stop`. -/
structure Lexeme where
  start : Nat
  token : Token
  stop : Nat

end Univariate
