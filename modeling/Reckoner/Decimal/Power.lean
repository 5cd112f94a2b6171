import Reckoner.Decimal.IntegerPower
import Reckoner.Decimal.Series
import Reckoner.Binary64

/-!
Powers. With a zero, an infinity or NaN on either side, the rules of binary64 apply to both
sides rounded to that format. An integer exponent that is exact in binary64 multiplies. Any other
goes through the logarithm: whether the power is in range is first estimated in binary64, and
one in range is the exact power, correctly rounded.

The logarithm of a base that is not near one has a multiple of the logarithm of ten in it, of
which a limited number of digits is at hand. A power that needs more is refused.
-/

namespace Reckoner

namespace Magnitude

/-- The reciprocal, if it is a decimal number. -/
def reciprocal? (m : Magnitude) : Option Magnitude :=
  let k := m.coeff.log2
  if pow10 k % m.coeff = 0 then some (.ofScaled (pow10 k / m.coeff) (-m.exp - k)) else none

/-- The `q`-th root, if it is a decimal number. As the coefficient has no factor ten, both parts
must have one, and a coefficient above one is at least `2 ^ q`. -/
def root? (q : Nat) (m : Magnitude) : Option Magnitude :=
  if m.exp % q ≠ 0 then none
  else if m.coeff = 1 then some (.ofScaled 1 (m.exp / q))
  else if m.coeff.log2 < q then none
  else
    let r := root q m.coeff
    if Nat.pow r q = m.coeff then some (.ofScaled r (m.exp / q)) else none

/-- The `n`-th power, unless it has far more than `digits` digits. -/
def natPower? (digits : Nat) (m : Magnitude) (n : Nat) : Option Magnitude :=
  if m.coeff = 1 then some (.ofScaled 1 (m.exp * n))
  else if 4 * (digits + 2) < m.coeff.log2 * n then none
  else some (.ofScaled (Nat.pow m.coeff n) (m.exp * n))

/-- The power with exponent `±y`, if it is a decimal number with hardly more than `digits`
digits: for an exponent `n / q` in lowest terms, the `q`-th root must be one. -/
def exactPower? (digits : Nat) (x : Magnitude) (negative : Bool) (y : Magnitude) :
    Option Magnitude := do
  let scale := pow10 (-y.exp).toNat
  let coeff := y.coeff * pow10 y.exp.toNat
  let g := Nat.gcd coeff scale
  let r ← x.root? (scale / g)
  let base ← if negative then r.reciprocal? else some r
  base.natPower? digits (coeff / g)

/-- The distance from one. -/
def distanceFromOne (x : Magnitude) : Magnitude :=
  let exp := min x.exp 0
  .ofScaled (((x.coeffAt exp : Nat) : Int) - (one.coeffAt exp : Nat)).natAbs exp

/-- Between one half and two, where the logarithm is about the distance from one. -/
def isNearOne (x : Magnitude) : Bool :=
  let first := pow10 (x.digitCount - 1)
  (x.lead = 0 && x.coeff < 2 * first) || (x.lead = -1 && 5 * first < x.coeff)

/-- Powers of ten below and above the absolute logarithm of an `x` other than one. -/
def logBounds (x : Magnitude) : Int × Int :=
  if x.isNearOne then (x.distanceFromOne.lead - 1, x.distanceFromOne.lead + 2)
  else (Digits.count x.lead.natAbs - 2, Digits.count (x.lead.natAbs + 1) + 1)

def isAboveOne (x : Magnitude) : Bool := x.compare one == .gt

/-- The power `x ^ ±y` through the logarithm, with the stated number of places. The power of ten
in front is split off before the exponential is taken. -/
def enclosePower (x : Magnitude) (negative : Bool) (y : Magnitude) (places : Nat) : Enclosure :=
  let scale := pow10 places
  let ln10 := Series.ln10 scale
  let ln := x.lead * ln10 + Series.lnQuotient x.coeff (pow10 (x.digitCount - 1)) scale
  let lnError := (x.lead.natAbs + 1) * Series.lnError scale
  let product := ln * (y.coeff * pow10 y.exp.toNat : Nat) / (pow10 (-y.exp).toNat : Nat)
  let product := if negative then -product else product
  let productError := lnError * (y.coeff * pow10 y.exp.toNat / pow10 (-y.exp).toNat + 1) + 1
  let lead := product / ln10
  let rest := (product - lead * ln10).toNat
  let error := Series.expError (productError + lead.natAbs * Series.lnError scale) scale
  let value := Series.exp rest scale
  ⟨false, value - error, value + error, lead - places⟩

/-- The logarithm to base ten, with every step rounded to binary64: of the digits behind a point
first, to which the place of the point is then added. -/
def log64 (m : Magnitude) : Rat :=
  let fraction := Binary64.nearest ((m.coeff : Rat) / pow10 m.digitCount)
  let scale := pow10 40
  let ln10 := Series.ln10 scale
  let ln := Series.lnQuotient (10 * fraction.num.natAbs) fraction.den scale - ln10
  let ratio := Binary64.nearest ((ln : Rat) / scale) / Binary64.nearest ((ln10 : Rat) / scale)
  Binary64.nearest (Binary64.nearest (Binary64.nearest ratio + m.lead) + 1)

/-- Whether the exponent of `x ^ ±y`, estimated in binary64, is above or below the range. A base
that is one in binary64 has powers in range only, unless `y` is infinite there. -/
def estimate (x : Magnitude) (negative : Bool) (y : Magnitude) : Ordering :=
  let log := if negative then -x.log64 else x.log64
  match (Binary64.ofMagnitude y).toRat? with
  | none => if 0 < log then .gt else if log < 0 then .lt else .eq
  | some n =>
    let exponent := (Binary64.nearest (n * log)).floor
    if (Binary64.ofMagnitude x).toRat? = some 1 then .eq
    else if Decimal.maxExponent + 1 < exponent then .gt
    else if exponent < -(Decimal.maxExponent + 1) then .lt
    else .eq

/-- From 0.7 up to 1.4, where the logarithm is summed without the logarithm of ten. -/
def hasShortLog (x : Magnitude) : Bool :=
  x.compare (.ofScaled 7 (-1)) != .lt && x.compare (.ofScaled 14 (-1)) == .lt

/-- The power `x ^ ±y` for `x` other than one and neither of them zero, rounded to `digits`
digits. Where it is far out of range, or nearer to one than any digit shows, its direction
decides. -/
def power (rounding : Rounding) (digits : Nat) (x : Magnitude) (negative : Bool) (y : Magnitude) :
    Magnitude :=
  let rising := x.isAboveOne != negative
  let (low, high) := x.logBounds
  if 17 < y.lead + low then
    .ofScaled 1 (if rising then Decimal.maxExponent + 1 else -Decimal.maxExponent - 1)
  else if y.lead + 1 + high < -(digits + 4 : Int) then
    let shift := digits + 3
    (ofScaled (if rising then pow10 shift + 1 else pow10 shift - 1) (-shift)).round rounding digits
  else
    match exactPower? digits x negative y with
    | some m => m
    | none =>
      let places (guardDigits : Nat) := digits + guardDigits + y.lead.toNat + 20
      (Enclosure.settle rounding digits (x.enclosePower negative y ∘ places) 8 32).2

end Magnitude

namespace Decimal

/-- How the absolute value compares with one after rounding to binary64. -/
def compareOne64 : Decimal → Ordering
  | nan => .eq
  | infinite _ => .gt
  | finite _ m =>
    match (Binary64.ofMagnitude m).toRat? with
    | none => .gt
    | some r => Ord.compare r.num r.den

/-- The power where a side is zero, infinite or NaN. An exponent that is zero in binary64 gives
one, whatever the base is. -/
def specialPower (x y : Decimal) : Decimal :=
  match x, y with
  | _, nan => nan
  | _, infinite negative =>
    match x, x.compareOne64 with
    | nan, _ => nan
    | _, .eq => nan
    | _, order => if (order == .gt) != negative then infinite false else zero
  | _, finite negative e =>
    let e := Binary64.ofMagnitude e
    if e.isZero then one
    else
      match x with
      | nan => nan
      | infinite p => if negative then finite (p && e.isOdd) .zero else infinite (p && e.isOdd)
      | finite p _ => if negative then infinite (p && e.isOdd) else finite (p && e.isOdd) .zero

end Decimal

namespace Context

/-- Integers up to this are exact in binary64. -/
def maxSafeInteger : Nat := pow2 53 - 1

def isSmallInteger (y : Magnitude) : Bool :=
  y.isInteger && y.lead < 16 && y.coeffAt 0 ≤ maxSafeInteger

/-- The digits at hand of the logarithm of ten. -/
def logLimit : Nat := 1025

/-- Whether the logarithm of `x` can be taken in the working precision and its guard digits. -/
def canTakeLog (ctx : Context) (x : Magnitude) : Bool :=
  x.hasShortLog || ctx.precision + 24 ≤ logLimit

/-- The power of two numbers that are finite and not zero, if its logarithm can be taken. -/
def powFinite (ctx : Context) (p : Bool) (a : Magnitude) (q : Bool) (b : Magnitude) :
    Option Decimal :=
  if p = false ∧ a = .one then some .one
  else if q = false ∧ b = .one then some (ctx.finish p a)
  else if isSmallInteger b then some (ctx.powInteger p a q (b.coeffAt 0))
  else if p && !b.isInteger then some .nan
  else
    let negative := p && b.isOdd
    if a = .one then some (.finite negative .one)
    else
      match a.estimate q b with
      | .gt => some (.infinite negative)
      | .lt => some .zero
      | .eq =>
        if ctx.canTakeLog a then
          some (ctx.finish negative (a.power ctx.rounding ctx.precision q b))
        else none

def pow (ctx : Context) (x y : Decimal) : Option Decimal :=
  match x, y with
  | .finite p a, .finite q b =>
    if a.isZero || b.isZero then some (Decimal.specialPower x y) else ctx.powFinite p a q b
  | _, _ => some (Decimal.specialPower x y)

end Context
end Reckoner
