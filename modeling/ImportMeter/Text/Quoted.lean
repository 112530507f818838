/-
This file quotes texts the way messages show them: what cannot be seen is written as an escape.
-/
import ImportMeter.Text.Basic

namespace ImportMeter.Text

/-- Ranges of characters that are not shown as they are: controls, blanks other than the space,
separators, formatting characters, the common blocks of combining marks, and private use. -/
def unseen : List (Nat × Nat) := [
  (0x00, 0x1f), (0x7f, 0xa0), (0xad, 0xad), (0x300, 0x36f), (0x483, 0x489), (0x591, 0x5bd),
  (0x600, 0x605), (0x610, 0x61a), (0x61c, 0x61c), (0x64b, 0x65f), (0x670, 0x670), (0x6d6, 0x6dd),
  (0x1680, 0x1680), (0x180b, 0x180f), (0x1ab0, 0x1ace), (0x1dc0, 0x1dff), (0x2000, 0x200f),
  (0x2028, 0x202f), (0x205f, 0x206f), (0x20d0, 0x20f0), (0x3000, 0x3000), (0x302a, 0x302f),
  (0x3099, 0x309a), (0xe000, 0xf8ff), (0xfe00, 0xfe0f), (0xfe20, 0xfe2f), (0xfeff, 0xfeff),
  (0xff9e, 0xff9f), (0xfff0, 0xfffb), (0xfffe, 0xffff), (0xe0000, 0x10ffff)]

def isUnseen (letter : Char) : Bool :=
  unseen.any fun range => range.1 ≤ letter.toNat && letter.toNat ≤ range.2

/-- One character inside quotes. -/
def quoteLetter (letter : Char) : Text :=
  if letter = '\x22' || letter = '\\' then ['\\', letter]
  else if letter = '\n' then ['\\', 'n']
  else if letter = '\r' then ['\\', 'r']
  else if letter = '\t' then ['\\', 't']
  else if letter.toNat = 0 then ['\\', '0']
  else if isUnseen letter then
    ['\\', 'u', '\x7b'] ++ Nat.toDigits 16 letter.toNat ++ ['\x7d']
  else [letter]

/-- A text between double quotes. -/
def quoted (text : Text) : Text := '\x22' :: text.flatMap quoteLetter ++ ['\x22']

end ImportMeter.Text
