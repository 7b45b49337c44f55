import Univariate.Token

/-!
# Errors

Every failure is recorded by its cause, and put into words in one place.
Failures of the first three kinds can be told from the expression alone;
the others need a solver, a collaborator or a configuration.

* `Error.kind` — the coarse class of a failure;
* `Error.isLocal` — the failure is found before any solver is asked;
* `Error.message` — the full text;
* `Error.userMessage` — the text shown in the form, which keeps the
  details of remote failures to itself.

A collaborator may hand over a failure in its own words; the causes named
`reported` hold those.
-/

namespace Univariate

/-- Why a text is not an expression. -/
inductive SyntaxFault where
  | empty
  | unmatchedOpen
  | unmatchedClose
  | badLiteral (text : String)
  | unknownName (name expected : String)
  | strayCharacter (c : Char)
  | unexpectedToken (token : Token)
  | unexpectedEnd
  | reported (reason : String)

/-- Why an expression is not a polynomial.  Positions are those of the
caret. -/
inductive StructureFault where
  | variableInExponent (position : Nat)
  | variableInDenominator
  | reported (reason : String)

/-- Why a polynomial lies outside what is computed. -/
inductive DomainFault where
  | fractionalExponent (position : Nat) (value : Float)
  | negativeExponent (position : Nat) (value : Float)
  | hugeExponent (position : Nat)
  | divisionByZero
  | degreeOverLimit (degree limit : Nat)
  | reported (reason : String)

/-- Why a polynomial could not be solved. -/
inductive NumericFault where
  | nonFinite
  | notConverged (bad total iterations : Nat)
  | reported (reason : String)

/-- Why no answer of a collaborator arrived. -/
inductive TransportFault where
  | timedOut
  | malformedResponse
  | reported (reason : String)

/-- Why a configuration is refused. -/
inductive SettingsFault where
  /-- The text is not JSON of the right shape. -/
  | undecodable
  | badVariable (name : String)
  | badTolerance (value : Float)
  | noIterations
  | reported (reason : String)

/-- Everything that can go wrong. -/
inductive Error where
  /-- The position is a byte offset into the text. -/
  | malformed (position : Nat) (fault : SyntaxFault)
  | notPolynomial (fault : StructureFault)
  | domain (fault : DomainFault)
  | unsolvable (fault : NumericFault)
  | transport (fault : TransportFault)
  | settings (fault : SettingsFault)
  | nothingToDiscard

/-- The coarse class of an error. -/
inductive ErrorKind where
  | malformed
  | notPolynomial
  | domain
  | unsolvable
  | transport
  | settings
  | nothingToDiscard
deriving DecidableEq, Repr

/-- The public name of a class of errors. -/
def ErrorKind.name : ErrorKind → String
  | malformed => "Syntax"
  | notPolynomial => "NotPolynomial"
  | domain => "Domain"
  | unsolvable => "UnsolvableNumerically"
  | transport => "Transport"
  | settings => "Config"
  | nothingToDiscard => "NothingToDiscard"

/-- Why a text is not an expression, in words. -/
def SyntaxFault.reason : SyntaxFault → String
  | empty => "empty expression"
  | unmatchedOpen => "unmatched '('"
  | unmatchedClose => "unmatched ')'"
  | badLiteral text => "invalid numeric literal '" ++ text ++ "'"
  | unknownName name expected =>
    "unknown identifier '" ++ name ++ "' (expected '" ++ expected ++ "')"
  | strayCharacter c => "unexpected character '" ++ c.toString ++ "'"
  | unexpectedToken token => "unexpected " ++ token.describe
  | unexpectedEnd => "unexpected end of expression"
  | reported reason => reason

/-- How a message begins that is about the exponent after a caret. -/
def exponentAt (position : Nat) : String :=
  "exponent at position " ++ Decimal.natText position

/-- Why an expression is not a polynomial, in words. -/
def StructureFault.reason : StructureFault → String
  | variableInExponent position => exponentAt position ++ " depends on the variable"
  | variableInDenominator => "the variable appears in a denominator"
  | reported reason => reason

/-- Why a polynomial is not computed, in words.  Numbers are written with the
shortest digits that read back. -/
def DomainFault.reason : DomainFault → String
  | fractionalExponent position value =>
    exponentAt position ++ " must be an integer, got " ++ Decimal.display value
  | negativeExponent position value =>
    exponentAt position ++ " must be non-negative, got " ++ Decimal.display value
  | hugeExponent position => exponentAt position ++ " is too large"
  | divisionByZero => "division by zero"
  | degreeOverLimit degree limit =>
    "degree " ++ Decimal.natText degree ++ " exceeds the limit of " ++
      Decimal.natText limit
  | reported reason => reason

/-- Why a polynomial could not be solved, in words. -/
def NumericFault.reason : NumericFault → String
  | nonFinite => "root iteration produced a non-finite value"
  | notConverged bad total iterations =>
    Decimal.natText bad ++ " of " ++ Decimal.natText total ++
      " roots did not converge within " ++ Decimal.natText iterations ++ " iterations"
  | reported reason => reason

/-- Why no answer arrived, in words. -/
def TransportFault.reason : TransportFault → String
  | timedOut => "timed out"
  | malformedResponse => "malformed solver response"
  | reported reason => reason

/-- Why a configuration is refused, in words. -/
def SettingsFault.reason : SettingsFault → String
  | undecodable => "not a configuration in JSON"
  | badVariable name => "variable '" ++ name ++ "' is not an identifier"
  | badTolerance value =>
    "root_tolerance must be in (0, 1), got " ++ Decimal.display value
  | noIterations => "max_iterations must be positive"
  | reported reason => reason

/-- Shown for every failure that only a solver round trip can reveal. -/
def genericFailure : String :=
  "An error occurred while processing the equation. Please check the format."

namespace Error

/-- The class of an error. -/
def kind : Error → ErrorKind
  | malformed .. => .malformed
  | notPolynomial _ => .notPolynomial
  | domain _ => .domain
  | unsolvable _ => .unsolvable
  | transport _ => .transport
  | settings _ => .settings
  | nothingToDiscard => .nothingToDiscard

/-- The error is found before any solver is asked. -/
def isLocal : Error → Bool
  | malformed .. | notPolynomial _ | domain _ => true
  | unsolvable _ | transport _ | settings _ | nothingToDiscard => false

/-- The full text. -/
def message : Error → String
  | malformed position fault =>
    "syntax error at position " ++ Decimal.natText position ++ ": " ++ fault.reason
  | notPolynomial fault => "not a polynomial: " ++ fault.reason
  | domain fault => "domain error: " ++ fault.reason
  | unsolvable fault => "solver did not converge: " ++ fault.reason
  | transport fault => "transport error: " ++ fault.reason
  | settings fault => "invalid configuration: " ++ fault.reason
  | nothingToDiscard => "nothing to discard"

/-- The text shown in the form. -/
def userMessage : Error → String
  | unsolvable _ | transport _ => genericFailure
  | other => other.message

end Error

end Univariate
