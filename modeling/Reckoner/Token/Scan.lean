import Reckoner.Decimal.Notation
import Reckoner.Token

/-!
Scanning: the longest number or identifier, a single character, or one code point outside the
language, with spaces in between. It never fails.
-/

namespace Reckoner.Token

/-- The token kind of a character that is a token by itself. -/
def Kind.ofUnit? (u : UInt16) : Option Kind :=
  if u = Text.unit '(' then some .leftParen
  else if u = Text.unit ')' then some .rightParen
  else if u = Text.unit ',' then some .comma
  else if u = Text.unit '.' then some .dot
  else if u = Text.unit '-' then some .minus
  else if u = Text.unit '+' then some .plus
  else if u = Text.unit '/' then some .slash
  else if u = Text.unit '*' then some .star
  else if u = Text.unit '=' then some .equal
  else if u = Text.unit '^' then some .caret
  else none

/-- The digits at the front of a text and those behind a point. The point belongs to the number
only if a digit follows it. -/
def splitNumber (t : Text) : Text × Text :=
  let fraction :=
    match t.dropWhile Text.isDigit with
    | [] => []
    | u :: rest => if u = Text.unit '.' then rest.takeWhile Text.isDigit else []
  (t.takeWhile Text.isDigit, fraction)

def numberLength (t : Text) : Nat :=
  let (whole, fraction) := splitNumber t
  whole.length + if fraction.isEmpty then 0 else fraction.length + 1

/-- The value of the number at the front, to the standard precision. -/
def numberValue (rounding : Rounding) (t : Text) : Decimal :=
  let (whole, fraction) := splitNumber t
  .ofMagnitude false
    ((Magnitude.ofNumeral whole fraction 0).round rounding Context.standardPrecision)

/-- The kind of the first lexeme of `u :: rest`, and how much of `rest` belongs to it. -/
def lexeme (rounding : Rounding) (u : UInt16) (rest : Text) : Kind × Nat :=
  if Text.isDigit u then
    (.number (some (numberValue rounding (u :: rest))), numberLength (u :: rest) - 1)
  else if Text.isLetter u then (.identifier, (rest.takeWhile Text.isAlphanumeric).length)
  else
    match Kind.ofUnit? u with
    | some kind => (kind, 0)
    | none =>
      (.unknown, if Text.isHighSurrogate u && rest.head?.any Text.isLowSurrogate then 1 else 0)

def scanFrom (rounding : Rounding) (offset : Nat) : Text → List Token
  | [] => [⟨.endOfText, offset, offset⟩]
  | u :: rest =>
    if u = Text.unit ' ' then scanFrom rounding (offset + 1) rest
    else
      let (kind, more) := lexeme rounding u rest
      let next := offset + 1 + more
      ⟨kind, offset, next⟩ :: scanFrom rounding next (rest.drop more)
termination_by t => t.length
decreasing_by
  all_goals
    simp only [List.length_cons, List.length_drop]
    omega

/-- The tokens of a text, the end of the text among them. -/
def scan (rounding : Rounding) (t : Text) : List Token := scanFrom rounding 0 t

end Reckoner.Token
