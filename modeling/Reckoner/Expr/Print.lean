import Reckoner.Expr
import Reckoner.Decimal.Notation

/-!
Fully parenthesized prefix form of expressions and statements.
-/

namespace Reckoner

/-- The operator's character, or the name of a kind that is no operator. -/
def Token.Kind.symbol : Token.Kind → Text
  | plus => "+"
  | minus => "-"
  | star => "*"
  | slash => "/"
  | caret => "^"
  | kind => kind.name

/-- A parenthesized list with spaces between its parts. -/
def Text.parenthesized (parts : List Text) : Text :=
  unit '(' :: join " " parts ++ [unit ')']

namespace Expr

mutual

def print : Expr → Except Failure Text
  | literal value _ => .ok value.text
  | binary left operator right => do
    let l ← left.print
    let r ← right.print
    return Text.parenthesized [operator.kind.symbol, l, r]
  | unary operator operand => do
    let e ← operand.print
    return Text.parenthesized [operator.kind.symbol, e]
  | grouping inner _ => do
    let e ← inner.print
    return Text.parenthesized ["group", e]
  | var name _ => .ok name
  | call name args _ => do
    let parts ← printAll args
    return Text.parenthesized (name :: parts)
  | foreign node => .error (.defect (.unhandledNode node))

def printAll : List Expr → Except Failure (List Text)
  | [] => .ok []
  | e :: rest => do
    let t ← e.print
    let ts ← printAll rest
    return t :: ts

end

end Expr

def Stmt.print : Stmt → Except Failure Text
  | expression expr => expr.print
  | variableAssignment name value => do
    let v ← value.print
    return name ++ (" = " : Text) ++ v
  | functionAssignment name params body => do
    let b ← body.print
    return Text.parenthesized (name :: params) ++ (" = " : Text) ++ b
  | foreign node => .error (.defect (.unhandledNode node))

end Reckoner
