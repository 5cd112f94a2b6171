import Reckoner.Text

/-!
White space: the space separators, the line terminators, tab, vertical tab, form feed and the
byte-order mark.
-/

namespace Reckoner.Text

def isBlank (u : UInt16) : Bool :=
  (0x0009 ≤ u && u ≤ 0x000D) || u == 0x0020 || u == 0x00A0 || u == 0x1680 ||
    (0x2000 ≤ u && u ≤ 0x200A) || u == 0x2028 || u == 0x2029 || u == 0x202F ||
    u == 0x205F || u == 0x3000 || u == 0xFEFF

/-- A text with nothing but white space in it. -/
def allBlank (t : Text) : Bool := t.all isBlank

end Reckoner.Text
