/-
This file writes JSON values, on one line or indented by two spaces.
-/
import ImportMeter.Json.Fault

namespace ImportMeter.Json

/-- One character inside quotes. -/
def writeLetter (letter : Char) : Text :=
  if letter = '\x22' || letter = '\\' then ['\\', letter]
  else if letter = '\n' then ['\\', 'n']
  else if letter = '\r' then ['\\', 'r']
  else if letter = '\t' then ['\\', 't']
  else if letter = '\x08' then ['\\', 'b']
  else if letter = '\x0c' then ['\\', 'f']
  else if letter < ' ' then
    let digits := Nat.toDigits 16 letter.toNat
    ['\\', 'u'] ++ List.replicate (4 - digits.length) '0' ++ digits
  else [letter]

def writeText (text : Text) : Text := '\x22' :: text.flatMap writeLetter ++ ['\x22']

def writeNumber : JsonNumber → Text
  | .integer value => JsonNumber.integerText value
  | .float value => JsonNumber.floatText value

/-- A line break and the indentation of a level. -/
def newLine (level : Nat) : Text := '\n' :: List.replicate (2 * level) ' '

mutual

/-- The value on one line, in front of some text. -/
def compactWith : Json → Text → Text
  | .null, rest => "null".toList ++ rest
  | .boolean true, rest => "true".toList ++ rest
  | .boolean false, rest => "false".toList ++ rest
  | .number value, rest => writeNumber value ++ rest
  | .text value, rest => writeText value ++ rest
  | .list items, rest => '[' :: compactItems true items (']' :: rest)
  | .object members, rest => '\x7b' :: compactMembers true members ('\x7d' :: rest)

def compactItems (isFirst : Bool) : List Json → Text → Text
  | [], rest => rest
  | item :: items, rest =>
    (if isFirst then [] else [',']) ++ item.compactWith (compactItems false items rest)

def compactMembers (isFirst : Bool) : List (Text × Json) → Text → Text
  | [], rest => rest
  | (name, value) :: members, rest =>
    (if isFirst then [] else [',']) ++ writeText name ++
      ':' :: value.compactWith (compactMembers false members rest)

end

/-- The value on one line. -/
def compact (value : Json) : Text := value.compactWith []

mutual

/-- The value over several lines, in front of some text. -/
def prettyWith : Nat → Json → Text → Text
  | _, .list [], rest => '[' :: ']' :: rest
  | _, .object [], rest => '\x7b' :: '\x7d' :: rest
  | level, .list items, rest =>
    '[' :: prettyItems (level + 1) true items (newLine level ++ ']' :: rest)
  | level, .object members, rest =>
    '\x7b' :: prettyMembers (level + 1) true members (newLine level ++ '\x7d' :: rest)
  | _, value, rest => value.compactWith rest

def prettyItems : Nat → Bool → List Json → Text → Text
  | _, _, [], rest => rest
  | level, isFirst, item :: items, rest =>
    (if isFirst then [] else [',']) ++ newLine level ++
      prettyWith level item (prettyItems level false items rest)

def prettyMembers : Nat → Bool → List (Text × Json) → Text → Text
  | _, _, [], rest => rest
  | level, isFirst, (name, value) :: members, rest =>
    (if isFirst then [] else [',']) ++ newLine level ++ writeText name ++
      ':' :: ' ' :: prettyWith level value (prettyMembers level false members rest)

end

/-- The value over several lines. -/
def pretty (value : Json) : Text := value.prettyWith 0 []

end ImportMeter.Json
