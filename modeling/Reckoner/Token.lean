import Reckoner.Decimal.Rounding

/-!
Tokens: a kind and the span of text it was read from. Scanned tokens have spans inside their
text; a token made by hand may claim any span.
-/

namespace Reckoner

/-- A number carries its value; one without a value is not an operand. -/
inductive Token.Kind where
  | number (literal : Option Decimal)
  | identifier
  | leftParen
  | rightParen
  | comma
  | dot
  | minus
  | plus
  | slash
  | star
  | equal
  | caret
  | unknown
  | endOfText
deriving DecidableEq

def Token.Kind.name : Token.Kind → Text
  | number _ => "NUMBER"
  | identifier => "IDENT"
  | leftParen => "LPAREN"
  | rightParen => "RPAREN"
  | comma => "COMMA"
  | dot => "DOT"
  | minus => "MINUS"
  | plus => "PLUS"
  | slash => "SLASH"
  | star => "STAR"
  | equal => "EQUAL"
  | caret => "CARET"
  | unknown => "UNKNOWN"
  | endOfText => "EOF"

structure Token where
  kind : Token.Kind
  start : Int
  stop : Int
deriving DecidableEq

end Reckoner
