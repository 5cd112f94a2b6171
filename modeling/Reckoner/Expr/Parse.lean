import Reckoner.Expr

/-!
Parsing one statement, token by token.

Precedence, loosest first: sums, products, signs, powers. All of them group to the left, so
`2^3^2` is `(2^3)^2`. An exponent is a primary with any number of signs.

What has been read but not finished is kept on a stack. A token either begins an operand,
or it follows a finished one: then everything on the stack that binds at least as tightly takes
the operand in, and the token decides what comes next. Nothing is read beyond the end token.
-/

namespace Reckoner

/-- Something that waits for the operand on its right, or for a closing parenthesis. -/
inductive Pending where
  | binary (left : Expr) (operator : Token)
  | unary (operator : Token) (inExponent : Bool)
  | group (opening : Token)
  | arguments (name : Token) (before : List Expr)

namespace Pending

/-- How tightly it binds. An open parenthesis lets nothing through. -/
def level : Pending → Nat
  | binary _ operator =>
    match operator.kind with
    | .plus => 1
    | .minus => 1
    | .star => 2
    | .slash => 2
    | _ => 4
  | unary _ inExponent => if inExponent then 5 else 3
  | group _ => 0
  | arguments _ _ => 0

/-- A sign after it is part of an exponent. -/
def awaitsExponent : Pending → Bool
  | binary _ operator => operator.kind = .caret
  | unary _ inExponent => inExponent
  | group _ => false
  | arguments _ _ => false

def complete (operand : Expr) : Pending → Expr
  | binary left operator => .binary left operator operand
  | unary operator _ => .unary operator operand
  | group _ => operand
  | arguments _ _ => operand

end Pending

/-- Hands the operand to everything on the stack that binds at least at `level`. -/
def reduce (level : Nat) : List Pending → Expr → List Pending × Expr
  | [], operand => ([], operand)
  | pending :: stack, operand =>
    if level ≤ pending.level then reduce level stack (pending.complete operand)
    else (pending :: stack, operand)

/-- Where the parser stands: before an operand, behind a name that may turn out to be called, or
behind a finished operand. -/
inductive Focus where
  | operand
  | name (token : Token)
  | finished (operand : Expr)

structure ParseState where
  /-- The left side of an assignment, once the equal sign has been read. -/
  target : Option Expr
  stack : List Pending
  focus : Focus

namespace ParseState

def initial : ParseState := ⟨none, [], .operand⟩

def await (s : ParseState) (pending : Pending) (stack : List Pending) : ParseState :=
  { s with stack := pending :: stack, focus := .operand }

def finish (s : ParseState) (operand : Expr) (stack : List Pending) : ParseState :=
  { s with stack := stack, focus := .finished operand }

def awaitsExponent (s : ParseState) : Bool := s.stack.head?.any Pending.awaitsExponent

/-- A token where an operand must begin. -/
def begin (s : ParseState) (t : Token) : Except Failure ParseState :=
  match t.kind with
  | .number (some value) => .ok (s.finish (.literal value t.start) s.stack)
  | .identifier => .ok { s with focus := .name t }
  | .leftParen => .ok (s.await (.group t) s.stack)
  | .plus => .ok (s.await (.unary t s.awaitsExponent) s.stack)
  | .minus => .ok (s.await (.unary t s.awaitsExponent) s.stack)
  | _ => .error (.fault .expectedExpression t.start)

def operate (s : ParseState) (operand : Expr) (level : Nat) (t : Token) : ParseState :=
  let (stack, left) := reduce level s.stack operand
  s.await (.binary left t) stack

end ParseState

def Token.name (source : Text) (t : Token) : Text := source.slice t.start t.stop

def Expr.parameter : Expr → Except Failure Text
  | .var name _ => .ok name
  | e => do throw (.fault .invalidParameter (← e.position))

/-- The assignment that `target = value` is. Only a name, or a call of names, can be assigned. -/
def Stmt.assignment (target value : Expr) : Except Failure Stmt :=
  match target with
  | .var name _ => .ok (.variableAssignment name value)
  | .call name args _ => do return .functionAssignment name (← args.mapM Expr.parameter) value
  | e => do throw (.fault .invalidTarget (← e.position))

namespace ParseState

/-- A token that is no operator, after everything in front of it has been reduced. -/
def close (source : Text) (s : ParseState) (t : Token) :
    List Pending × Expr → Except Failure ParseState
  | (.group opening :: stack, operand) =>
    if t.kind = .rightParen then .ok (s.finish (.grouping operand opening.start) stack)
    else .error (.fault .unclosedGroup t.start)
  | (.arguments name before :: stack, operand) =>
    let args := before ++ [operand]
    if t.kind = .comma then .ok (s.await (.arguments name args) stack)
    else if t.kind = .rightParen then
      .ok (s.finish (.call (name.name source) args name.start) stack)
    else .error (.fault .unclosedArguments t.start)
  | (_, operand) =>
    match s.target with
    | none =>
      if t.kind = .equal then .ok ⟨some operand, [], .operand⟩
      else .error (.fault .trailingInput t.start)
    | some target => do
      let _ ← Stmt.assignment target operand
      throw (.fault .trailingInput t.start)

/-- A token behind a finished operand. -/
def follow (source : Text) (s : ParseState) (operand : Expr) (t : Token) :
    Except Failure ParseState :=
  match t.kind with
  | .plus => .ok (s.operate operand 1 t)
  | .minus => .ok (s.operate operand 1 t)
  | .star => .ok (s.operate operand 2 t)
  | .slash => .ok (s.operate operand 2 t)
  | .caret => .ok (s.operate operand 4 t)
  | _ => s.close source t (reduce 1 s.stack operand)

def step (source : Text) (s : ParseState) (t : Token) : Except Failure ParseState :=
  match s.focus with
  | .operand => s.begin t
  | .name name =>
    if t.kind = .leftParen then .ok (s.await (.arguments name []) s.stack)
    else s.follow source (.var (name.name source) name.start) t
  | .finished operand => s.follow source operand t

/-- The statement that ends here, after everything has been reduced. -/
def conclude (s : ParseState) (pos : Int) : List Pending × Expr → Except Failure Stmt
  | (.group _ :: _, _) => .error (.fault .unclosedGroup pos)
  | (.arguments _ _ :: _, _) => .error (.fault .unclosedArguments pos)
  | (_, operand) =>
    match s.target with
    | none => .ok (.expression operand)
    | some target => Stmt.assignment target operand

/-- The end of the tokens, at `pos`. -/
def stop (source : Text) (s : ParseState) (pos : Int) : Except Failure Stmt :=
  match s.focus with
  | .operand => .error (.fault .expectedExpression pos)
  | .name name => s.conclude pos (reduce 1 s.stack (.var (name.name source) name.start))
  | .finished operand => s.conclude pos (reduce 1 s.stack operand)

/-- Reads up to the end token, or to the end of a list that has none. -/
def run (source : Text) (s : ParseState) : List Token → Except Failure Stmt
  | [] => s.stop source source.length
  | t :: rest =>
    if t.kind = .endOfText then s.stop source t.start
    else
      match s.step source t with
      | .ok next => next.run source rest
      | .error failure => .error failure

end ParseState

/-- The statement of a list of tokens; names are read from the source through the spans. -/
def Stmt.parse (source : Text) (tokens : List Token) : Except Failure Stmt :=
  ParseState.initial.run source tokens

end Reckoner
