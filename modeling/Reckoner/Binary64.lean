import Reckoner.Decimal.Notation
import Reckoner.Decimal.Rounding

/-!
Non-negative binary64 numbers: rounding a rational to the nearest one, and the shortest
numeral that rounds back to a given one. Counts in settings and numbers in JSON are held in
this format.
-/

namespace Reckoner

/-- A number `significand * 2 ^ exponent` with a significand of at most 53 bits, or infinity. -/
inductive Binary64 where
  | finite (significand : Nat) (exponent : Int)
  | infinite
deriving DecidableEq

namespace Binary64

/-- The exponent of the smallest positive number. -/
def minExponent : Int := -1074

/-- The exponent `k` with `2 ^ k ≤ r < 2 ^ (k + 1)`, for a positive `r`. -/
def log2 (r : Rat) : Int :=
  let k : Int := r.num.natAbs.log2 - r.den.log2
  if r < (2 : Rat) ^ k then k - 1 else k

/-- The integer nearest to a non-negative rational, the even one of two. -/
def nearestNat (r : Rat) : Nat := Rounding.halfEven.quotient r.num.natAbs r.den

/-- The nearest number to a non-negative rational, the one with the even significand of two. -/
def ofRat (r : Rat) : Binary64 :=
  if r = 0 then finite 0 minExponent
  else
    let exponent := max (log2 r - 52) minExponent
    let n := nearestNat (r / (2 : Rat) ^ exponent)
    let (n, exponent) := if n = pow2 53 then (pow2 52, exponent + 1) else (n, exponent)
    if 971 < exponent then infinite else finite n exponent

def ofNat (n : Nat) : Binary64 := ofRat n

/-- The nearest number to a magnitude. Those far outside the range are not scaled. -/
def ofMagnitude (m : Magnitude) : Binary64 :=
  if m.isZero || m.lead < -400 then finite 0 minExponent
  else if 400 < m.lead then infinite
  else ofRat (m.coeff * (10 : Rat) ^ m.exp)

def toRat? : Binary64 → Option Rat
  | finite n e => some (n * (2 : Rat) ^ e)
  | infinite => none

/-- The value of the nearest number, of either sign; a rational out of range stays as it is. -/
def nearest (r : Rat) : Rat :=
  if r < 0 then -(ofRat (-r)).toRat?.getD (-r) else (ofRat r).toRat?.getD r

/-- The value of an integral number. -/
def toNat? (x : Binary64) : Option Nat :=
  x.toRat?.bind fun r => if r.den = 1 then some r.num.natAbs else none

def isZero (x : Binary64) : Bool := x.toRat? == some 0

def isOdd (x : Binary64) : Bool := x.toNat?.any (· % 2 == 1)

/-- The exponent `k` with `10 ^ k ≤ r < 10 ^ (k + 1)`, for a positive `r`. -/
def log10 (r : Rat) : Int :=
  let k : Int := Digits.count r.num.natAbs - Digits.count r.den
  if r < (10 : Rat) ^ k then k - 1 else k

/-- Whether a rational lies among those that round to `n * 2 ^ e`. -/
def roundsTo (n : Nat) (e : Int) (r : Rat) : Bool :=
  let value := n * (2 : Rat) ^ e
  let below := if n = pow2 52 ∧ minExponent < e then e - 2 else e - 1
  let low := value - (2 : Rat) ^ below
  let high := value + (2 : Rat) ^ (e - 1)
  if n % 2 = 0 then low ≤ r && r ≤ high else low < r && r < high

/-- The nearest of the numbers with `digits` digits that round to `n * 2 ^ e`. Only the two
neighbours on that grid can be: if any grid point rounds to the value, one of them does. -/
def withDigits? (n : Nat) (e : Int) (digits : Nat) : Option Magnitude :=
  let value := n * (2 : Rat) ^ e
  let exp := log10 value - digits + 1
  let unit := (10 : Rat) ^ exp
  let near := nearestNat (value / unit)
  let other := if near * unit ≤ value then near + 1 else near - 1
  ([near, other].find? fun c : Nat => roundsTo n e (c * unit)).map (.ofScaled · exp)

/-- The fewest digits that round back; seventeen always do. -/
def shortest (n : Nat) (e : Int) : Magnitude :=
  if n = 0 then .zero
  else ((List.range 17).findSome? fun k => withDigits? n e (k + 1)).getD .zero

def text : Binary64 → Text
  | infinite => "Infinity"
  | finite n e => (shortest n e).text

end Binary64

/-- The text of a count held in binary64. -/
def Text.ofCount (n : Int) : Text :=
  let digits := (Binary64.ofNat n.natAbs).text
  if n < 0 then unit '-' :: digits else digits

end Reckoner
