import Reckoner.Digits

/-!
Decimal numbers: NaN, two infinities, and finite numbers with a sign and a magnitude. A
magnitude has one representation, so equality of values is equality of terms, and the two
zeros differ only in their sign.
-/

namespace Reckoner

/-- The number `coeff * 10 ^ exp`, its coefficient without trailing zeros. -/
structure Magnitude where
  coeff : Nat
  exp : Int
  canonical : coeff % 10 ≠ 0 ∨ coeff = 0 ∧ exp = 0
deriving DecidableEq

namespace Magnitude

def zero : Magnitude := ⟨0, 0, .inr ⟨rfl, rfl⟩⟩

def one : Magnitude := ⟨1, 0, .inl (by decide)⟩

instance : Inhabited Magnitude := ⟨zero⟩

/-- Moves up to `k` trailing zeros from the coefficient into the exponent. -/
def stripZeros : Nat → Nat → Int → Nat × Int
  | 0, c, e => (c, e)
  | k + 1, c, e => if c % 10 = 0 then stripZeros k (c / 10) (e + 1) else (c, e)

theorem stripZeros_coeff (k c : Nat) (e : Int) (positive : 0 < c) (bound : c < pow2 (k + 1)) :
    (stripZeros k c e).1 % 10 ≠ 0 := by
  induction k generalizing c e with
  | zero => rw [pow2_succ, pow2_zero] at bound; simp only [stripZeros]; omega
  | succ k ih =>
    simp only [stripZeros]
    split
    · exact ih (c / 10) (e + 1) (by omega) (by rw [pow2_succ] at bound; omega)
    · assumption

/-- The magnitude `c * 10 ^ e`. -/
def ofScaled (c : Nat) (e : Int) : Magnitude :=
  if h : c = 0 then zero
  else
    ⟨(stripZeros c.log2 c e).1, (stripZeros c.log2 c e).2,
      .inl (stripZeros_coeff _ _ _ (Nat.pos_of_ne_zero h) Nat.lt_log2_self)⟩

def ofNat (n : Nat) : Magnitude := ofScaled n 0

def isZero (m : Magnitude) : Bool := m.coeff == 0

/-- The number of significant digits, none for zero. -/
def digitCount (m : Magnitude) : Nat := Digits.count m.coeff

/-- The exponent of the leading digit. -/
def lead (m : Magnitude) : Int := m.exp + m.digitCount - 1

/-- The coefficient over the exponent `e`, for an `e` not above the magnitude's own. -/
def coeffAt (m : Magnitude) (e : Int) : Nat := m.coeff * pow10 (m.exp - e).toNat

def isInteger (m : Magnitude) : Bool := 0 ≤ m.exp

def isOdd (m : Magnitude) : Bool := m.exp == 0 && m.coeff % 2 == 1

/-- Numerical order: by leading digit first, so that no large power of ten is formed. -/
def compare (a b : Magnitude) : Ordering :=
  if a.isZero || b.isZero then Ord.compare a.coeff b.coeff
  else
    (Ord.compare a.lead b.lead).then
      (Ord.compare (a.coeffAt (min a.exp b.exp)) (b.coeffAt (min a.exp b.exp)))

end Magnitude

inductive Decimal where
  | nan
  | infinite (negative : Bool)
  | finite (negative : Bool) (magnitude : Magnitude)
deriving DecidableEq

namespace Decimal

instance : Inhabited Decimal := ⟨nan⟩

/-- The largest exponent of a leading digit, and with a minus sign the smallest. -/
def maxExponent : Int := 9000000000000000

def zero : Decimal := finite false .zero

def one : Decimal := finite false .one

/-- A magnitude too large for the exponent range is infinite, one too small is zero. -/
def ofMagnitude (negative : Bool) (m : Magnitude) : Decimal :=
  if m.isZero then finite negative m
  else if maxExponent < m.lead then infinite negative
  else if m.lead < -maxExponent then finite negative .zero
  else finite negative m

def ofNat (n : Nat) : Decimal := finite false (.ofNat n)

def isNegative : Decimal → Bool
  | nan => false
  | infinite negative => negative
  | finite negative _ => negative

def neg : Decimal → Decimal
  | nan => nan
  | infinite negative => infinite !negative
  | finite negative m => finite (!negative) m

/-- The total preorder of ranks: NaN above everything, the two zeros equal. -/
def rank : Decimal → Decimal → Ordering
  | nan, nan => .eq
  | nan, _ => .gt
  | _, nan => .lt
  | infinite a, infinite b => Ord.compare b.toNat a.toNat
  | infinite a, finite .. => if a then .lt else .gt
  | finite .., infinite b => if b then .gt else .lt
  | finite a x, finite b y =>
    if x.isZero && y.isZero then .eq
    else
      match a, b with
      | false, false => x.compare y
      | true, true => y.compare x
      | true, false => .lt
      | false, true => .gt

end Decimal
end Reckoner
