import Reckoner.Decimal.Rounding

/-!
Sum, difference, product, quotient and square root, each the exact result rounded once.

A digit below every rounding boundary can be changed without effect. This keeps the work
bounded: a summand far below the other one is replaced by a single low digit, and an endless
quotient or root is cut behind its last deciding digit and marked by a final one.
-/

namespace Reckoner

/-- The integer part of the `q`-th root of `n`. The steps of the tangent rule descend to it from
a power of two above it. -/
def root (q n : Nat) : Nat := go (pow2 (n.log2 / q + 1))
where
  go (r : Nat) : Nat :=
    let next := ((q - 1) * r + n / Nat.pow r (q - 1)) / q
    if _h : next < r then go next else r
  termination_by r

namespace Magnitude

def signed (negative : Bool) (n : Nat) : Int := if negative then -(n : Int) else n

/-- Every rounding boundary near `a`, after adding something smaller, is a multiple of ten to
this exponent, and so is `a`. -/
def boundary (digits : Nat) (a : Magnitude) : Int := min a.exp (a.lead - digits - 1)

/-- A magnitude below `10 ^ t` is as good as any other such, seen from multiples of `10 ^ t`. -/
def orTrace (t : Int) (b : Magnitude) : Magnitude := if b.lead < t then .ofScaled 1 (t - 1) else b

/-- The exact quotient, or one that agrees with it on `digits + 1` digits and is not exact. -/
def quotient (digits : Nat) (a b : Magnitude) : Magnitude :=
  let g := Nat.gcd a.coeff b.coeff
  let num := a.coeff / g
  let den := b.coeff / g
  let exp := a.exp - b.exp
  let k := den.log2
  if pow10 k % den = 0 then .ofScaled (num * (pow10 k / den)) (exp - k)
  else
    let shift := digits + 1 + Digits.count den - Digits.count num
    .ofScaled (10 * (num * pow10 shift / den) + 1) (exp - shift - 1)

/-- The exact root, or one that agrees with it on `digits + 1` digits and is not exact. -/
def squareRoot (digits : Nat) (a : Magnitude) : Magnitude :=
  let odd := a.exp % 2 = 1
  let coeff := if odd then a.coeff * 10 else a.coeff
  let exp := if odd then (a.exp - 1) / 2 else a.exp / 2
  let r := root 2 coeff
  if r * r = coeff then .ofScaled r exp
  else
    let shift := digits + 1
    .ofScaled (10 * root 2 (coeff * pow10 (2 * shift)) + 1) (exp - shift - 1)

end Magnitude

namespace Context

/-- The sum of two non-zero numbers, the first of them with the higher leading digit. -/
def addOrdered (ctx : Context) (p : Bool) (a : Magnitude) (q : Bool) (b : Magnitude) : Decimal :=
  let b := b.orTrace (a.boundary ctx.precision)
  let exp := min a.exp b.exp
  let n := Magnitude.signed p (a.coeffAt exp) + Magnitude.signed q (b.coeffAt exp)
  if n = 0 then .zero else ctx.finish (n < 0) (.ofScaled n.natAbs exp)

def addFinite (ctx : Context) (p : Bool) (a : Magnitude) (q : Bool) (b : Magnitude) : Decimal :=
  match a.isZero, b.isZero with
  | true, true => .finite (p && q) .zero
  | true, false => ctx.finish q b
  | false, true => ctx.finish p a
  | false, false => if a.lead < b.lead then ctx.addOrdered q b p a else ctx.addOrdered p a q b

def add (ctx : Context) : Decimal → Decimal → Decimal
  | .nan, _ => .nan
  | _, .nan => .nan
  | .infinite p, .infinite q => if p = q then .infinite p else .nan
  | .infinite p, .finite .. => .infinite p
  | .finite .., .infinite q => .infinite q
  | .finite p a, .finite q b => ctx.addFinite p a q b

def sub (ctx : Context) (x y : Decimal) : Decimal := ctx.add x y.neg

def mul (ctx : Context) : Decimal → Decimal → Decimal
  | .nan, _ => .nan
  | _, .nan => .nan
  | .infinite p, .infinite q => .infinite (p != q)
  | .infinite p, .finite q b => if b.isZero then .nan else .infinite (p != q)
  | .finite p a, .infinite q => if a.isZero then .nan else .infinite (p != q)
  | .finite p a, .finite q b => ctx.finish (p != q) (.ofScaled (a.coeff * b.coeff) (a.exp + b.exp))

def div (ctx : Context) : Decimal → Decimal → Decimal
  | .nan, _ => .nan
  | _, .nan => .nan
  | .infinite _, .infinite _ => .nan
  | .infinite p, .finite q _ => .infinite (p != q)
  | .finite p _, .infinite q => .finite (p != q) .zero
  | .finite p a, .finite q b =>
    match a.isZero, b.isZero with
    | true, true => .nan
    | true, false => .finite (p != q) .zero
    | false, true => .infinite (p != q)
    | false, false => ctx.finish (p != q) (a.quotient ctx.precision b)

def sqrt (ctx : Context) : Decimal → Decimal
  | .nan => .nan
  | .infinite negative => if negative then .nan else .infinite false
  | .finite negative a =>
    if a.isZero then .finite negative a
    else if negative then .nan
    else ctx.finish false (a.squareRoot ctx.precision)

end Context
end Reckoner
