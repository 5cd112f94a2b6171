import Reckoner.Fault

/-!
Expressions and statements. Trees may come from outside, so operators are whole tokens of any
kind, a call may lack arguments, and a node of an unknown kind is kept as it came.
-/

namespace Reckoner

inductive Expr where
  | literal (value : Decimal) (pos : Int)
  | binary (left : Expr) (operator : Token) (right : Expr)
  | unary (operator : Token) (operand : Expr)
  | grouping (inner : Expr) (pos : Int)
  | var (name : Text) (pos : Int)
  | call (name : Text) (args : List Expr) (pos : Int)
  | foreign (node : Json)

inductive Stmt where
  | expression (expr : Expr)
  | variableAssignment (name : Text) (value : Expr)
  | functionAssignment (name : Text) (params : List Text) (body : Expr)
  | foreign (node : Json)

namespace Expr

/-- The start of the first token of an expression. -/
def position : Expr → Except Failure Int
  | literal _ pos => .ok pos
  | binary left _ _ => left.position
  | unary operator _ => .ok operator.start
  | grouping _ pos => .ok pos
  | var _ pos => .ok pos
  | call _ _ pos => .ok pos
  | foreign node => .error (.defect (.unhandledNode node))

end Expr
end Reckoner
