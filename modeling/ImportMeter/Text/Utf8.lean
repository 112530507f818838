/-
This file writes texts as UTF-8 bytes and reads bytes back, byte by byte.
-/
import ImportMeter.Text.Basic

namespace ImportMeter.Text

/-- The UTF-8 bytes of a text. -/
def toBytes (text : Text) : List UInt8 :=
  text.flatMap String.utf8EncodeChar

/-- Stands for bytes that are not UTF-8. -/
def replacement : Char := '\ufffd'

/-- A character of which some bytes have been read: how many are still to come, the value so far, and
the bounds that the next byte has to keep. -/
structure Pending where
  missing : Nat
  value : Nat
  low : UInt8
  high : UInt8

/-- What a leading byte announces, if it can lead a character of several bytes. Overlong forms,
surrogates and values past the last character are kept out by the bounds of the second byte. -/
def Pending.ofLead? (byte : UInt8) : Option Pending :=
  if 0xc2 ≤ byte && byte ≤ 0xdf then some ⟨1, byte.toNat - 0xc0, 0x80, 0xbf⟩
  else if byte = 0xe0 then some ⟨2, 0, 0xa0, 0xbf⟩
  else if byte = 0xed then some ⟨2, 0xd, 0x80, 0x9f⟩
  else if 0xe1 ≤ byte && byte ≤ 0xef then some ⟨2, byte.toNat - 0xe0, 0x80, 0xbf⟩
  else if byte = 0xf0 then some ⟨3, 0, 0x90, 0xbf⟩
  else if 0xf1 ≤ byte && byte ≤ 0xf3 then some ⟨3, byte.toNat - 0xf0, 0x80, 0xbf⟩
  else if byte = 0xf4 then some ⟨3, 4, 0x80, 0x8f⟩
  else none

/-- The byte that begins a character: a whole character, a malformed byte, or more to come. -/
def leadByte (byte : UInt8) : List (Option Char) × Option Pending :=
  if byte < 0x80 then ([some (Char.ofNat byte.toNat)], none)
  else match Pending.ofLead? byte with
    | some pending => ([], some pending)
    | none => ([none], none)

/-- Reads characters from bytes; `none` stands for each malformed piece, which is as long as the part
of it that could have begun a character. -/
def readBytes : Option Pending → List UInt8 → List (Option Char)
  | none, [] => []
  | some _, [] => [none]
  | none, byte :: rest =>
    let (read, pending) := leadByte byte
    read ++ readBytes pending rest
  | some pending, byte :: rest =>
    if pending.low ≤ byte && byte ≤ pending.high then
      let value := pending.value * 64 + (byte.toNat - 0x80)
      match pending.missing with
      | 0 | 1 => some (Char.ofNat value) :: readBytes none rest
      | missing + 1 => readBytes (some ⟨missing, value, 0x80, 0xbf⟩) rest
    else
      let (read, pending) := leadByte byte
      none :: read ++ readBytes pending rest

/-- The text that bytes spell, if they are UTF-8. -/
def ofBytes? (bytes : List UInt8) : Option Text :=
  (readBytes none bytes).mapM id

/-- The text that bytes spell, with a replacement character for each malformed piece. -/
def ofBytesLossy (bytes : List UInt8) : Text :=
  (readBytes none bytes).map (·.getD replacement)

end ImportMeter.Text
