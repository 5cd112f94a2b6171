import Reckoner.Binary64

/-!
JSON values with their fields in order, and their compact text. A number too large for binary64
has no numeral and is written as `null`.
-/

namespace Reckoner

inductive Json where
  | null
  | bool (value : Bool)
  | number (negative : Bool) (value : Binary64)
  | string (value : Text)
  | array (items : List Json)
  | object (fields : List (Text × Json))

namespace Json

instance : Inhabited Json := ⟨null⟩

def hexDigit (n : Nat) : UInt16 := if n < 10 then (48 + n).toUInt16 else (87 + n).toUInt16

/-- Four hexadecimal digits behind a backslash and a `u`. -/
def escapeUnit (u : UInt16) : Text :=
  let n := u.toNat
  let digits := [n / 4096, n / 256 % 16, n / 16 % 16, n % 16]
  Text.ofString "\\u" ++ digits.map hexDigit

/-- A quote, a backslash, a control character and an unpaired surrogate are escaped. -/
def quoteUnit (u : UInt16) : Text :=
  if u == Text.unit '"' then "\\\""
  else if u == Text.unit '\\' then "\\\\"
  else if u == 0x08 then "\\b"
  else if u == 0x0C then "\\f"
  else if u == Text.unit '\n' then "\\n"
  else if u == Text.unit '\r' then "\\r"
  else if u == Text.unit '\t' then "\\t"
  else if u < 0x20 || Text.isHighSurrogate u || Text.isLowSurrogate u then escapeUnit u
  else [u]

def quoteBody : Text → Text
  | [] => []
  | [u] => quoteUnit u
  | u :: v :: rest =>
    if Text.isHighSurrogate u && Text.isLowSurrogate v then u :: v :: quoteBody rest
    else quoteUnit u ++ quoteBody (v :: rest)

/-- The text as a JSON string. -/
def quote (t : Text) : Text := Text.unit '"' :: quoteBody t ++ [Text.unit '"']

mutual

/-- The compact text of a value in front of `rest`. -/
def write : Json → Text → Text
  | null, rest => ("null" : Text) ++ rest
  | bool value, rest => (if value then ("true" : Text) else "false") ++ rest
  | number _ .infinite, rest => ("null" : Text) ++ rest
  | number negative value, rest =>
    (if negative && !value.isZero then Text.unit '-' :: value.text else value.text) ++ rest
  | string value, rest => quote value ++ rest
  | array items, rest => Text.unit '[' :: writeItems items (Text.unit ']' :: rest)
  | object fields, rest => Text.unit '\x7b' :: writeFields fields (Text.unit '\x7d' :: rest)

def writeItems : List Json → Text → Text
  | [], rest => rest
  | [item], rest => write item rest
  | item :: items, rest => write item (Text.unit ',' :: writeItems items rest)

def writeFields : List (Text × Json) → Text → Text
  | [], rest => rest
  | [(name, value)], rest => quote name ++ Text.unit ':' :: write value rest
  | (name, value) :: fields, rest =>
    quote name ++ Text.unit ':' :: write value (Text.unit ',' :: writeFields fields rest)

end

def compact (j : Json) : Text := j.write []

end Json
end Reckoner
