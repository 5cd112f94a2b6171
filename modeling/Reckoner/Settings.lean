import Reckoner.Binary64
import Reckoner.Text.Blank

/-!
Settings, read from environment variables.
-/

namespace Reckoner

structure Settings where
  /-- Significant digits shown for results. -/
  displayDigits : Nat
  /-- Limit for nested calls of user functions. -/
  maxCallDepth : Nat
  debug : Bool
deriving DecidableEq

namespace Settings

def default : Settings := ⟨32, 256, false⟩

/-- The count written at the front of a text: white space, a sign, and digits, of which the
longest run counts. It is held in binary64 and must be positive and finite there. -/
def readCount? (raw : Text) : Option Nat :=
  let t := raw.dropWhile Text.isBlank
  let negative := t.head? == some (Text.unit '-')
  let signed := negative || t.head? == some (Text.unit '+')
  let digits := (if signed then t.tail else t).takeWhile Text.isDigit
  if negative then none
  else (Binary64.ofNat (Digits.read digits)).toNat?.filter (0 < ·)

def digitsName : Text := "TALLY_DISPLAY_DIGITS"

def depthName : Text := "TALLY_MAX_CALL_DEPTH"

def debugName : Text := "TALLY_DEBUG"

/-- The settings that variables give by name, with defaults for what is missing or unfit. -/
def load (given : Text → Option Text) : Settings where
  displayDigits := ((given digitsName).bind readCount?).getD default.displayDigits
  maxCallDepth := ((given depthName).bind readCount?).getD default.maxCallDepth
  debug := given debugName == some (Text.ofString "1")

def summary (s : Settings) : Text :=
  Text.ofCount s.displayDigits ++ (" digits, call depth " : Text) ++ Text.ofCount s.maxCallDepth

end Settings
end Reckoner
