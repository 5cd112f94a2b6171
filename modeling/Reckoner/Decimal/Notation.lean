import Reckoner.Decimal.Basic

/-!
Numerals: the exact text of a decimal, and reading a numeral back.

A numeral is positional while its leading digit stands no more than twenty-one places before
the point and no more than six behind it, and in scientific form otherwise.
-/

namespace Reckoner

namespace Text

/-- The digits with a point behind the first `places` of them, filled up with zeros. -/
def positional (digits : Text) (places : Int) : Text :=
  if places ≤ 0 then (ofString "0.") ++ zeros (-places).toNat ++ digits
  else
    let n := places.toNat
    let whole := digits.take n ++ zeros (n - digits.length)
    let fraction := digits.drop n
    if fraction.isEmpty then whole else whole ++ unit '.' :: fraction

/-- One digit, the others behind a point, and the exponent of that digit. -/
def scientific (digits : Text) (exponent : Text) : Text :=
  positional digits 1 ++ unit 'e' :: exponent

end Text

namespace Magnitude

def text (m : Magnitude) : Text :=
  if m.isZero then Text.ofNat 0
  else if -7 < m.lead ∧ m.lead < 21 then Text.positional (Digits.text m.coeff) (m.lead + 1)
  else
    Text.scientific (Digits.text m.coeff)
      (if 0 ≤ m.lead then Text.unit '+' :: Text.ofInt m.lead else Text.ofInt m.lead)

/-- The magnitude of the numeral `whole.fraction`, scaled by a power of ten. -/
def ofNumeral (whole fraction : Text) (exponent : Int) : Magnitude :=
  ofScaled (Digits.read (whole ++ fraction)) (exponent - fraction.length)

end Magnitude

namespace Decimal

/-- The exact numeral, with the sign of a negative zero. -/
def signedText : Decimal → Text
  | nan => "NaN"
  | infinite negative => if negative then "-Infinity" else "Infinity"
  | finite negative m => if negative then Text.unit '-' :: m.text else m.text

/-- The exact numeral; both zeros are `0`. -/
def text : Decimal → Text
  | finite negative m => signedText (finite (negative && !m.isZero) m)
  | x => x.signedText

/-- An optional minus sign and digits. -/
def readInt? (t : Text) : Option Int :=
  match t with
  | [] => none
  | u :: rest =>
    let negative := u == Text.unit '-'
    let digits := if negative then rest else t
    if digits.isEmpty || !digits.all Text.isDigit then none
    else some (if negative then -(Digits.read digits : Int) else Digits.read digits)

/-- Digits, optionally a point and digits, optionally `e` and an exponent. -/
def readMagnitude? (t : Text) : Option Magnitude :=
  let whole := t.takeWhile Text.isDigit
  let rest := t.dropWhile Text.isDigit
  let pointed := rest.head? == some (Text.unit '.')
  let fraction := if pointed then rest.tail.takeWhile Text.isDigit else []
  let rest := if pointed then rest.tail.dropWhile Text.isDigit else rest
  if whole.isEmpty || (pointed && fraction.isEmpty) then none
  else
    match rest with
    | [] => some (.ofNumeral whole fraction 0)
    | u :: exponent =>
      if u == Text.unit 'e' then (readInt? exponent).map (Magnitude.ofNumeral whole fraction)
      else none

/-- Reads a numeral exactly, in the exponent range. -/
def read? (t : Text) : Option Decimal :=
  let negative := t.head? == some (Text.unit '-')
  let body := if negative then t.tail else t
  if t == Text.ofString "NaN" then some nan
  else if body == Text.ofString "Infinity" then some (infinite negative)
  else (readMagnitude? body).map (ofMagnitude negative)

end Decimal
end Reckoner
