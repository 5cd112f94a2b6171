import Reckoner.Decimal.Notation
import Reckoner.Decimal.Rounding

/-!
How results are shown: rounded half-even to a number of significant digits, positionally if the
point falls within as many places, else in scientific form.
-/

namespace Reckoner

/-- More digits than this behind the first one cannot be asked for. -/
def maxDisplayPlaces : Nat := 1000000000

/-- The digits to show for a requested count: its integral part, and at least one. -/
def displayPrecision (digits : Rat) : Nat := (max 1 (digits.num.tdiv digits.den)).toNat

/-- The digits of a rounded magnitude, and the place of the point before or behind the first
of them. A magnitude that rounding took out of range is the word for it, with one place. -/
def Magnitude.displayDigits (m : Magnitude) : Text × Int :=
  if Decimal.maxExponent < m.lead then ("Infinity", 1) else (Digits.text m.coeff, m.lead + 1)

/-- When all of the precision stands before the point, there is none. -/
def Text.display (precision : Nat) (digits : Text) (places : Int) : Text :=
  if places = precision then digits ++ zeros (precision - digits.length)
  else if -precision < places ∧ places < precision then positional digits places
  else scientific digits (ofInt (places - 1))

namespace Decimal

/-- The shown text, or the places asked for if they are too many. -/
def display (precision : Nat) : Decimal → Except Nat Text
  | nan => .ok "NaN"
  | infinite negative => .ok (if negative then "-inf" else "inf")
  | finite negative m =>
    if m.isZero then .ok "0"
    else if maxDisplayPlaces < precision - 1 then .error (precision - 1)
    else
      let (digits, places) := (m.round .halfEven precision).displayDigits
      let body := Text.display precision digits places
      .ok (if negative then Text.unit '-' :: body else body)

end Decimal
end Reckoner
