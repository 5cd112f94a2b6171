import Reckoner.Json
import Reckoner.Token

/-!
What can go wrong. A fault is the user's and has a position in the text; a defect is a
statement or a setting that no text and no user should lead to.
-/

namespace Reckoner

inductive Fault where
  | expectedExpression
  | unclosedGroup
  | unclosedArguments
  | trailingInput
  | invalidParameter
  | invalidTarget
  | undeclaredVariable (name : Text)
  | unknownFunction (name : Text)
  | wrongArity (name : Text) (params : Nat)
  | emptyArguments (name : Text)
  | recursionLimit (limit : Int)
  | sineLimit
deriving DecidableEq

namespace Fault

def code : Fault → Text
  | expectedExpression => "UNEXPECTED_TOKEN"
  | unclosedGroup => "UNCLOSED_PAREN"
  | unclosedArguments => "UNCLOSED_PAREN"
  | trailingInput => "TRAILING_INPUT"
  | invalidParameter => "INVALID_ASSIGNMENT"
  | invalidTarget => "INVALID_ASSIGNMENT"
  | undeclaredVariable _ => "UNDECLARED_VARIABLE"
  | unknownFunction _ => "UNKNOWN_FUNCTION"
  | wrongArity _ _ => "WRONG_ARITY"
  | emptyArguments _ => "EMPTY_ARGUMENTS"
  | recursionLimit _ => "RECURSION_LIMIT"
  | sineLimit => "PRECISION_LIMIT"

def message : Fault → Text
  | expectedExpression => "Expected expression"
  | unclosedGroup => "Expected ')' after expression"
  | unclosedArguments => "Expected ')' after arguments"
  | trailingInput => "Unexpected input after expression"
  | invalidParameter => "Invalid function parameter"
  | invalidTarget => "Expected function or variable assignment"
  | undeclaredVariable name => ("Undeclared variable '" : Text) ++ name ++ ("'" : Text)
  | unknownFunction name => ("No function named '" : Text) ++ name ++ ("'" : Text)
  | wrongArity name params =>
    ("Function '" : Text) ++ name ++ ("' takes " : Text) ++ Text.ofNat params ++ (" args" : Text)
  | emptyArguments name => ("Function '" : Text) ++ name ++ ("' needs at least 1 argument" : Text)
  | recursionLimit limit =>
    ("Maximum call depth " : Text) ++ Text.ofCount limit ++ (" exceeded" : Text)
  | sineLimit => "Argument of 'sin' is too large"

end Fault

inductive Defect where
  | unexpectedBinary (kind : Token.Kind)
  | unexpectedUnary (kind : Token.Kind)
  | unhandledNode (node : Json)
  | invalidDigits (count : Nat)
  | logarithmLimit

def Defect.message : Defect → Text
  | unexpectedBinary kind => ("Unexpected binary operator " : Text) ++ kind.name
  | unexpectedUnary kind => ("Unexpected unary operator " : Text) ++ kind.name
  | unhandledNode node => ("Unhandled node: " : Text) ++ node.compact
  | invalidDigits count => ("[DecimalError] Invalid argument: " : Text) ++ Text.ofCount count
  | logarithmLimit => "[DecimalError] Precision limit exceeded"

inductive Failure where
  | fault (fault : Fault) (pos : Int)
  | defect (defect : Defect)

namespace Failure

def message : Failure → Text
  | fault f _ => f.message
  | defect d => d.message

/-- The source, a caret under the position, and the message. -/
def pointer (source : Text) (pos : Int) (message : Text) : Text :=
  let column := (min pos source.length).toNat
  source ++ [Text.unit '\n'] ++ List.replicate column (Text.unit ' ') ++ ("^ " : Text) ++ message

end Failure
end Reckoner
