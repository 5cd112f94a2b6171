/-!
Text as a sequence of UTF-16 code units. Offsets, lengths and spans all count units, and a
surrogate may stand alone, so a slice of a text is always a text.
-/

namespace Reckoner

/-- A sequence of UTF-16 code units; its order is the lexicographic order of the units. -/
abbrev Text := List UInt16

namespace Text

/-- The code unit of a character of the basic plane. -/
def unit (c : Char) : UInt16 := c.toNat.toUInt16

/-- One unit for a character of the basic plane, a surrogate pair for any other. -/
def ofChar (c : Char) : Text :=
  if c.toNat < 0x10000 then [unit c]
  else
    let n := c.toNat - 0x10000
    [(0xD800 + n / 0x400).toUInt16, (0xDC00 + n % 0x400).toUInt16]

def ofString (s : String) : Text := s.toList.flatMap ofChar

instance : Coe String Text := ⟨ofString⟩

def isDigit (u : UInt16) : Bool := unit '0' ≤ u && u ≤ unit '9'

def isLetter (u : UInt16) : Bool :=
  (unit 'a' ≤ u && u ≤ unit 'z') || (unit 'A' ≤ u && u ≤ unit 'Z')

def isAlphanumeric (u : UInt16) : Bool := isLetter u || isDigit u

def isHighSurrogate (u : UInt16) : Bool := 0xD800 ≤ u && u ≤ 0xDBFF

def isLowSurrogate (u : UInt16) : Bool := 0xDC00 ≤ u && u ≤ 0xDFFF

/-- The characters of a text. A lone surrogate has none, and the replacement character stands
for it. -/
def toChars : Text → List Char
  | [] => []
  | [u] => [if isHighSurrogate u || isLowSurrogate u then '\uFFFD' else Char.ofNat u.toNat]
  | u :: v :: rest =>
    if isHighSurrogate u && isLowSurrogate v then
      Char.ofNat (0x10000 + (u.toNat - 0xD800) * 0x400 + (v.toNat - 0xDC00)) :: toChars rest
    else
      (if isHighSurrogate u || isLowSurrogate u then '\uFFFD' else Char.ofNat u.toNat) ::
        toChars (v :: rest)

def toString (t : Text) : String := String.ofList t.toChars

/-- An offset into a text of `n` units: a negative one counts from the end, and none leaves
the text. -/
def resolve (n : Nat) (offset : Int) : Nat :=
  if offset < 0 then (n + offset).toNat else min offset.toNat n

/-- The units from `start` up to `stop`, none when `stop` is not after `start`. -/
def slice (t : Text) (start stop : Int) : Text :=
  (t.take (resolve t.length stop)).drop (resolve t.length start)

def before (t : Text) (stop : Int) : Text := t.slice 0 stop

def after (t : Text) (start : Int) : Text := t.slice start t.length

theorem resolve_natCast (n offset : Nat) : resolve n offset = min offset n := by
  rw [resolve, if_neg (by omega), Int.toNat_natCast]

theorem slice_between (front middle back : Text) :
    slice (front ++ (middle ++ back)) front.length (front.length + middle.length : Nat) =
      middle := by
  rw [slice, resolve_natCast, resolve_natCast, Nat.min_eq_left (by simp),
    Nat.min_eq_left (by simp), List.take_length_add_append, List.drop_left, List.take_left]

theorem before_append (front back : Text) : before (front ++ back) front.length = front := by
  have h := slice_between [] front back
  rwa [List.nil_append, List.length_nil, Nat.zero_add] at h

theorem after_append (front back : Text) : after (front ++ back) front.length = back := by
  have h := slice_between front back []
  rwa [List.append_nil, ← List.length_append] at h

/-- The texts with `separator` between each two. -/
def join (separator : Text) : List Text → Text
  | [] => []
  | [t] => t
  | t :: rest => t ++ separator ++ join separator rest

end Text
end Reckoner
