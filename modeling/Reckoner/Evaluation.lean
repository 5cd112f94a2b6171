import Reckoner.Decimal.Power
import Reckoner.Environment

/-!
Evaluation of expressions and statements. Each call of a user function runs in a frame of its
own, and a name is looked up in the innermost frame, then in the environment. The number of
nested calls is limited, which is also why evaluation ends.
-/

namespace Reckoner

/-- The arguments of a call under the names of its parameters. -/
abbrev Frame := List (Text × Decimal)

/-- Of a repeated parameter the last argument is found. -/
def Frame.bind (params : List Text) (args : List Decimal) : Frame := (params.zip args).reverse

/-- What evaluation changes: the arithmetic context and the stack of frames, innermost first. -/
structure Machine where
  context : Context
  frames : List Frame

/-- How many more calls may be nested in those that are running. -/
def Machine.callsLeft (limit : Int) (machine : Machine) : Nat :=
  (limit - machine.frames.length).toNat

/-- What evaluation reads. -/
structure Scope where
  env : Environment
  last : Decimal
  callLimit : Int

abbrev Evaluator := ExceptT Failure (StateM Machine)

namespace Evaluator

/-- A computation in the current arithmetic context. -/
def arithmetic (f : Context → Decimal) : Evaluator Decimal :=
  fun machine => (.ok (f machine.context), machine)

/-- A computation that may fail and leave another context behind. -/
def applying (f : Context → Except Failure Decimal × Context) : Evaluator Decimal :=
  fun machine => ((f machine.context).1, { machine with context := (f machine.context).2 })

/-- Runs a body in a new frame, which is gone afterwards however the body ends. -/
def inFrame (frame : Frame) (body : Evaluator Decimal) : Evaluator Decimal :=
  fun machine =>
    let (result, after) := body { machine with frames := frame :: machine.frames }
    (result, { after with frames := after.frames.tail })

end Evaluator

namespace Scope

/-- The name of the last result. -/
def lastName : Text := "ans"

def lookup (scope : Scope) (name : Text) (pos : Int) : Evaluator Decimal :=
  fun machine =>
    if name = lastName then (.ok scope.last, machine)
    else
      match (machine.frames.head?.bind (List.lookup name)).or (scope.env.value? name) with
      | some value => (.ok value, machine)
      | none => (.error (.fault (.undeclaredVariable name) pos), machine)

/-- Calls a function on evaluated arguments. `body` evaluates the body of a user function; there
is none when the call limit has been reached. -/
def call (scope : Scope) (body : Option (Expr → Evaluator Decimal)) (name : Text)
    (args : List Decimal) (pos : Int) : Evaluator Decimal :=
  match scope.env.function? name with
  | none => throw (.fault (.unknownFunction name) pos)
  | some (.builtin b) => Evaluator.applying (b.apply args pos)
  | some (.user params expr) =>
    if params.length ≠ args.length then throw (.fault (.wrongArity name params.length) pos)
    else
      match body with
      | none => throw (.fault (.recursionLimit scope.callLimit) pos)
      | some run => Evaluator.inFrame (.bind params args) (run expr)

end Scope

def Token.Kind.applyBinary (kind : Token.Kind) (x y : Decimal) : Evaluator Decimal :=
  match kind with
  | plus => Evaluator.arithmetic (·.add x y)
  | minus => Evaluator.arithmetic (·.sub x y)
  | star => Evaluator.arithmetic (·.mul x y)
  | slash => Evaluator.arithmetic (·.div x y)
  | caret => Evaluator.applying fun ctx =>
      ((ctx.pow x y).elim (.error (.defect .logarithmLimit)) .ok, ctx)
  | _ => throw (.defect (.unexpectedBinary kind))

def Token.Kind.applyUnary (kind : Token.Kind) (x : Decimal) : Evaluator Decimal :=
  match kind with
  | plus => pure x
  | minus => pure x.neg
  | _ => throw (.defect (.unexpectedUnary kind))

namespace Expr

mutual

/-- Evaluates with a given way to run the bodies of user functions. -/
def evalWith (scope : Scope) (body : Option (Expr → Evaluator Decimal)) :
    Expr → Evaluator Decimal
  | literal value _ => pure value
  | grouping inner _ => evalWith scope body inner
  | var name pos => scope.lookup name pos
  | binary left operator right => do
    let x ← evalWith scope body left
    let y ← evalWith scope body right
    operator.kind.applyBinary x y
  | unary operator operand => do
    let x ← evalWith scope body operand
    operator.kind.applyUnary x
  | call name args pos => do
    let values ← evalAll scope body args
    scope.call body name values pos
  | foreign node => throw (.defect (.unhandledNode node))

def evalAll (scope : Scope) (body : Option (Expr → Evaluator Decimal)) :
    List Expr → Evaluator (List Decimal)
  | [] => pure []
  | e :: rest => do
    let value ← evalWith scope body e
    let values ← evalAll scope body rest
    return value :: values

end

/-- Evaluates with at most `calls` further nested calls. -/
def evalWithin (scope : Scope) : Nat → Expr → Evaluator Decimal
  | 0 => evalWith scope none
  | calls + 1 => evalWith scope (some (evalWithin scope calls))

/-- Evaluates an expression under the frames that are on the stack. -/
def eval (scope : Scope) (e : Expr) : Evaluator Decimal :=
  fun machine => e.evalWithin scope (machine.callsLeft scope.callLimit) machine

end Expr

namespace Stmt

/-- The value of a function definition. -/
def definitionValue : Decimal := .one

/-- The value of an expression outside of any call, and the context afterwards. -/
def evalTop (scope : Scope) (ctx : Context) (e : Expr) : Except Failure Decimal × Context :=
  let (result, machine) := e.eval scope ⟨ctx, []⟩
  (result, machine.context)

/-- Evaluates a statement to its value and the environment after it. An assignment is stored only
if `persist` is set and its value was found. -/
def evaluate (scope : Scope) (persist : Bool) (ctx : Context) (stmt : Stmt) :
    Except Failure (Decimal × Environment) × Context :=
  match stmt with
  | expression expr =>
    let (result, ctx) := evalTop scope ctx expr
    (result.map fun value => (value, scope.env), ctx)
  | variableAssignment name value =>
    let (result, ctx) := evalTop scope ctx value
    (result.map fun value =>
      (value, if persist then scope.env.setVariable name value else scope.env), ctx)
  | functionAssignment name params body =>
    (.ok (definitionValue,
      if persist then scope.env.setFunction name (.user params body) else scope.env), ctx)
  | foreign node => (.error (.defect (.unhandledNode node)), ctx)

end Stmt
end Reckoner
