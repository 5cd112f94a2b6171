import Reckoner.Text

/-!
The identifier in front of an offset, found by looking back from it.
-/

namespace Reckoner

structure Span where
  start : Nat
  stop : Nat
deriving DecidableEq

namespace Text

/-- The offset of the leftmost letter in the run of letters and digits that ends at the given
offset. The text in front of the offset is given backwards. -/
def leftmostLetter : Text → Nat → Option Nat
  | [], _ => none
  | u :: before, offset =>
    if isAlphanumeric u then
      (leftmostLetter before (offset - 1)).or (if isLetter u then some (offset - 1) else none)
    else none

/-- The identifier that ends at an offset: the run of letters and digits in front of it, from
its leftmost letter. There is none without a letter, nor outside of the text. -/
def identifierSpan (t : Text) (stop : Int) : Option Span :=
  if 0 ≤ stop ∧ stop ≤ t.length then
    (leftmostLetter (t.take stop.toNat).reverse stop.toNat).map (⟨·, stop.toNat⟩)
  else none

def identifierAtEnd (t : Text) : Option Text :=
  (t.identifierSpan t.length).map fun span => t.slice span.start span.stop

end Text
end Reckoner
