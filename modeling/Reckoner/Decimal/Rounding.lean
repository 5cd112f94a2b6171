import Reckoner.Decimal.Basic

/-!
The arithmetic context: how many significant digits a result keeps and which way it is
rounded. Every operation rounds once, from an exact value or from one that no rounding
boundary separates from it.
-/

namespace Reckoner

inductive Rounding where
  | halfEven
  | towardZero
deriving DecidableEq, Repr

/-- The integer that `num / den` is rounded to. -/
def Rounding.quotient (rounding : Rounding) (num den : Nat) : Nat :=
  match rounding with
  | .towardZero => num / den
  | .halfEven =>
    let q := num / den
    let r := num % den
    if 2 * r < den ∨ 2 * r = den ∧ q % 2 = 0 then q else q + 1

structure Context where
  precision : Nat
  rounding : Rounding
deriving DecidableEq, Repr

/-- Digits of a number literal, and of every result until the context is changed. -/
def Context.standardPrecision : Nat := 78

def Context.standard : Context := ⟨Context.standardPrecision, .halfEven⟩

/-- The magnitude rounded to `digits` significant digits; shorter ones stay as they are. -/
def Magnitude.round (rounding : Rounding) (digits : Nat) (m : Magnitude) : Magnitude :=
  if m.digitCount ≤ digits then m
  else
    let excess := m.digitCount - digits
    .ofScaled (rounding.quotient m.coeff (pow10 excess)) (m.exp + excess)

/-- A decimal rounded to `digits` significant digits, within the exponent range. -/
def Decimal.round (rounding : Rounding) (digits : Nat) : Decimal → Decimal
  | .finite negative m => .ofMagnitude negative (m.round rounding digits)
  | x => x

namespace Context

/-- The result of an operation: its exact magnitude, rounded. -/
def finish (ctx : Context) (negative : Bool) (m : Magnitude) : Decimal :=
  .ofMagnitude negative (m.round ctx.rounding ctx.precision)

end Context
end Reckoner
