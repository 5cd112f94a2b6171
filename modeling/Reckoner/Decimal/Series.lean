import Reckoner.Decimal.Rounding

/-!
Fixed-point series for logarithms, exponentials, sines and pi, and rounding from an enclosure.

A number `v` is held as an integer near `v * scale`. Every series comes with a bound on its
error, counted in units of the last place, in terms of `steps scale`, which bounds the number
of its terms. Rounding tries larger and larger scales until both ends of the enclosure are
rounded to the same number.
-/

namespace Reckoner

/-- The numbers from `low * 10 ^ exp` to `high * 10 ^ exp`, below zero if `negative`. -/
structure Enclosure where
  negative : Bool
  low : Nat
  high : Nat
  exp : Int

namespace Enclosure

/-- What the low end is rounded to. -/
def roundLow (rounding : Rounding) (digits : Nat) (e : Enclosure) : Magnitude :=
  (Magnitude.ofScaled e.low e.exp).round rounding digits

def roundHigh (rounding : Rounding) (digits : Nat) (e : Enclosure) : Magnitude :=
  (Magnitude.ofScaled e.high e.exp).round rounding digits

/-- Both ends are rounded to one number, and so is all between them. -/
def isSettled (rounding : Rounding) (digits : Nat) (e : Enclosure) : Bool :=
  e.low ≠ 0 && e.roundLow rounding digits == e.roundHigh rounding digits

/-- Rounds the number that `enclose` approximates ever more closely, in at most `tries` + 1
attempts of which each has twice the guard digits of the one before. -/
def settle (rounding : Rounding) (digits : Nat) (enclose : Nat → Enclosure) :
    Nat → Nat → Bool × Magnitude
  | 0, guardDigits =>
    let e := enclose guardDigits
    (e.negative, e.roundLow rounding digits)
  | tries + 1, guardDigits =>
    let e := enclose guardDigits
    if e.isSettled rounding digits then (e.negative, e.roundLow rounding digits)
    else settle rounding digits enclose tries (2 * guardDigits)

end Enclosure

namespace Series

/-- More terms than any of the series has before they vanish. -/
def steps (scale : Nat) : Nat := scale.log2 + 8

/-- The sum `1/n ± 1/(3 n^3) + 1/(5 n^5) ± …`, which is the inverse tangent of `1 / n` if the
signs alternate, else the inverse hyperbolic tangent. The error is at most `2 * steps scale`. -/
def inverse (alternating : Bool) (n scale : Nat) : Int :=
  go (steps scale) 1 false (scale / n) 0
where
  go : Nat → Nat → Bool → Nat → Int → Int
    | 0, _, _, _, sum => sum
    | k + 1, odd, minus, power, sum =>
      if power = 0 then sum
      else
        let term : Int := (power / odd : Nat)
        go k (odd + 2) (alternating && !minus) (power / (n * n))
          (if minus then sum - term else sum + term)

/-- The inverse hyperbolic tangent of `z / scale`, for `3 * |z| ≤ scale`. The error is at most
`3 * steps scale`. -/
def artanh (z : Int) (scale : Nat) : Int := go (steps scale) 1 z 0
where
  go : Nat → Nat → Int → Int → Int
    | 0, _, _, sum => sum
    | k + 1, odd, power, sum =>
      if power = 0 then sum
      else go k (odd + 2) ((power * (z * z / scale)).tdiv scale) (sum + power.tdiv odd)

def pi (scale : Nat) : Int := 16 * inverse true 5 scale - 4 * inverse true 239 scale

/-- Bounds the error of `pi`. -/
def piError (scale : Nat) : Nat := 40 * steps scale

def ln2 (scale : Nat) : Int := 2 * inverse false 3 scale

def ln10 (scale : Nat) : Int := 3 * ln2 scale + 2 * inverse false 9 scale

/-- The logarithm of `num / den`, for a quotient from 1 to 10: a power of two is split off, so
that the rest lies between 3/4 and 3/2. -/
def lnQuotient (num den scale : Nat) : Int :=
  let twos : Nat :=
    if 6 * den ≤ num then 3
    else if 3 * den ≤ num then 2
    else if 3 * den ≤ 2 * num then 1
    else 0
  let den := pow2 twos * den
  twos * ln2 scale + 2 * artanh ((((num : Int) - den) * scale).tdiv (num + den)) scale

/-- Bounds the errors of `ln10` and `lnQuotient`. -/
def lnError (scale : Nat) : Nat := 20 * steps scale + 40

/-- The exponential of `r / scale`, for `0 ≤ r ≤ 3 * scale`. -/
def exp (r scale : Nat) : Nat := go (steps scale) 1 scale 0
where
  go : Nat → Nat → Nat → Nat → Nat
    | 0, _, _, sum => sum
    | k + 1, n, term, sum =>
      if term = 0 then sum else go k (n + 1) (term * r / (n * scale)) (sum + term)

/-- Bounds the error of `exp` at an argument that is itself off by `error` units. -/
def expError (error scale : Nat) : Nat := 24 * (error + steps scale)

/-- The sine of `r / scale`, for `0 ≤ r ≤ 2 * scale`. The error is at most `3 * steps scale`. -/
def sin (r scale : Nat) : Int := go (steps scale) 1 false r 0
where
  go : Nat → Nat → Bool → Nat → Int → Int
    | 0, _, _, _, sum => sum
    | k + 1, n, minus, term, sum =>
      if term = 0 then sum
      else
        go k (n + 2) (!minus) (term * (r * r / scale) / ((n + 1) * (n + 2) * scale))
          (if minus then sum - term else sum + term)

end Series
end Reckoner
