/-
This file holds the character classes of script source text.
-/
import ImportMeter.Text.Basic

namespace ImportMeter.Script

/-- Blanks between tokens: the Unicode white space characters, the byte order mark, the word joiner
and the zero width space. -/
def isBlank (letter : Char) : Bool :=
  let code := letter.toNat
  code == 0x20 || (0x09 ≤ code && code ≤ 0x0d) || code == 0x85 || code == 0xa0 ||
    code == 0x1680 || (0x2000 ≤ code && code ≤ 0x200b) || code == 0x2028 || code == 0x2029 ||
    code == 0x202f || code == 0x205f || code == 0x2060 || code == 0x3000 || code == 0xfeff

/-- The blanks an automatic semicolon may look across: ASCII ones only. -/
def isPlainBlank (letter : Char) : Bool :=
  let code := letter.toNat
  code == 0x20 || (0x09 ≤ code && code ≤ 0x0d)

/-- The line ends that matter to automatic semicolons and to one-line comments. -/
def isLineEnd (letter : Char) : Bool :=
  let code := letter.toNat
  code == 0x0a || code == 0x2028 || code == 0x2029

/-- A NUL character ends what is looked at, like the end of the text. -/
def isNul (letter : Char) : Bool :=
  letter.toNat == 0

def isDigit (letter : Char) : Bool :=
  '0' ≤ letter && letter ≤ '9'

def isOctal (letter : Char) : Bool :=
  '0' ≤ letter && letter ≤ '7'

def isHex (letter : Char) : Bool :=
  isDigit letter || ('a' ≤ letter && letter ≤ 'f') || ('A' ≤ letter && letter ≤ 'F')

def isLetter (letter : Char) : Bool :=
  ('a' ≤ letter && letter ≤ 'z') || ('A' ≤ letter && letter ≤ 'Z')

/-- ASCII characters that end a name. -/
def isPunctuation (letter : Char) : Bool :=
  let code := letter.toNat
  (0x21 ≤ code && code ≤ 0x2f && code != 0x24) || (0x3a ≤ code && code ≤ 0x40) ||
    (0x5b ≤ code && code ≤ 0x60 && code != 0x5f) || (0x7b ≤ code && code ≤ 0x7e)

/-- Characters a name may hold after its first: everything but control characters, blanks and
ASCII punctuation. -/
def isNamePart (letter : Char) : Bool :=
  0x20 < letter.toNat && !isPunctuation letter && !isBlank letter

/-- Characters a name may begin with. -/
def isNameStart (letter : Char) : Bool :=
  isNamePart letter && !isDigit letter

end ImportMeter.Script
