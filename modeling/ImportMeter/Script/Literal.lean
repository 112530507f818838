/-
This file reads the values of string literals.
-/
import ImportMeter.Script.Character
import ImportMeter.Script.Place

namespace ImportMeter.Script

/-- The value of a hexadecimal digit; other characters count as zero. -/
def hexValue (letter : Char) : Nat :=
  if isDigit letter then letter.toNat - '0'.toNat
  else if 'a' ≤ letter && letter ≤ 'f' then letter.toNat - 'a'.toNat + 10
  else if 'A' ≤ letter && letter ≤ 'F' then letter.toNat - 'A'.toNat + 10
  else 0

/-- The number that hexadecimal digits spell, if there is a digit and nothing else. -/
def hexNumber? (digits : Text) : Option Nat :=
  if digits ≠ [] && digits.all isHex then
    some (digits.foldl (fun value digit => value * 16 + hexValue digit) 0)
  else none

/-- The character of a code point; surrogates and numbers beyond the last code point have none. -/
def characterOf? (code : Nat) : Option Char :=
  if h : code.isValidChar then some (Char.ofNatAux code h) else none

/-- The text without braces around it. -/
def withoutBraces (text : Text) : Text :=
  ((text.dropWhile (· = '{')).reverse.dropWhile (· = '}')).reverse

/-- The character that an escape stands for, given what follows its backslash. A line break stands
for none, and so does a code that is no character. -/
def escapedCharacter? : Text → Option Char
  | ['n'] => some '\n'
  | ['t'] => some '\t'
  | ['r'] => some '\r'
  | ['b'] => some '\x08'
  | ['f'] => some '\x0c'
  | ['v'] => some '\x0b'
  | ['0'] => some '\x00'
  | [] => none
  | letter :: rest =>
    if letter = 'x' || letter = 'u' then (hexNumber? (withoutBraces rest)).bind characterOf?
    else if letter = '\n' || letter = '\r' then none
    else some letter

/-- What one part of a string literal adds to its value. -/
def partValue : Tree → Text
  | .leaf _ .stringFragment letters => letters
  | .leaf _ .escapeSequence letters => (escapedCharacter? (letters.drop 1)).toList
  | _ => []

/-- The value of a string literal with its escapes decoded; anything else has none. -/
def stringValue? (tree : Tree) : Option Text :=
  if tree.kind = .string then some (tree.children.flatMap partValue) else none

end ImportMeter.Script
