import Reckoner.Decimal.Arithmetic
import Reckoner.Decimal.Sine
import Reckoner.Fault

/-!
The built-in functions. They take any number of arguments; all but the sum need one.
-/

namespace Reckoner

inductive Builtin where
  | sum
  | avg
  | min
  | max
  | sqrt
  | sin
deriving DecidableEq

namespace Builtin

def all : List Builtin := [sum, avg, min, max, sqrt, sin]

def name : Builtin → Text
  | sum => "sum"
  | avg => "avg"
  | min => "min"
  | max => "max"
  | sqrt => "sqrt"
  | sin => "sin"

def total (ctx : Context) (args : List Decimal) : Decimal := args.foldl ctx.add .zero

def average (ctx : Context) (args : List Decimal) : Decimal :=
  ctx.div (total ctx args) (.ofNat args.length)

/-- The first of the arguments that ranks `order` against all others. -/
def extreme (order : Ordering) (first : Decimal) (rest : List Decimal) : Decimal :=
  rest.foldl (fun best x => if x.rank best = order then x else best) first

/-- The value at some arguments, and the context afterwards. Only a refused sine changes it. -/
def apply (b : Builtin) (args : List Decimal) (pos : Int) (ctx : Context) :
    Except Failure Decimal × Context :=
  match b, args with
  | sum, args => (.ok (total ctx args), ctx)
  | b, [] => (.error (.fault (.emptyArguments b.name) pos), ctx)
  | avg, args => (.ok (average ctx args), ctx)
  | min, first :: rest => (.ok (extreme .lt first rest), ctx)
  | max, first :: rest => (.ok (extreme .gt first rest), ctx)
  | sqrt, first :: _ => (.ok (ctx.sqrt first), ctx)
  | sin, first :: _ =>
    match ctx.sin first with
    | .ok value => (.ok value, ctx)
    | .error changed => (.error (.fault .sineLimit pos), changed)

end Builtin
end Reckoner
