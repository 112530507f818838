/-
This file decodes percent escapes.
-/
import ImportMeter.Text.Utf8

namespace ImportMeter.Text

def hexDigit? (byte : UInt8) : Option UInt8 :=
  if 0x30 ≤ byte && byte ≤ 0x39 then some (byte - 0x30)
  else if 0x61 ≤ byte && byte ≤ 0x66 then some (byte - 0x61 + 10)
  else if 0x41 ≤ byte && byte ≤ 0x46 then some (byte - 0x41 + 10)
  else none

/-- The value of the two bytes of an escape. A plus sign may stand in for the first digit. -/
def escapedByte? (first second : UInt8) : Option UInt8 :=
  (hexDigit? second).bind fun low =>
    if first = 0x2b then some low
    else (hexDigit? first).map fun high => high * 16 + low

/-- Puts the byte that an escape names in the place of each escape. -/
def unescapeBytes : List UInt8 → List UInt8
  | byte :: first :: second :: rest =>
    if byte = 0x25 then
      match escapedByte? first second with
      | some value => value :: unescapeBytes rest
      | none => byte :: unescapeBytes (first :: second :: rest)
    else byte :: unescapeBytes (first :: second :: rest)
  | byte :: rest => byte :: unescapeBytes rest
  | [] => []

/-- A text with its percent escapes decoded. Bytes that come out as no UTF-8 are replaced. -/
def percentDecode (text : Text) : Text :=
  ofBytesLossy (unescapeBytes text.toBytes)

end ImportMeter.Text
