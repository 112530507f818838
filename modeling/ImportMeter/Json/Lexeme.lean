/-
This file reads the words, strings and numbers of JSON texts. Every reader gives what it read and
what is left.
-/
import ImportMeter.Json.Fault
import ImportMeter.Text.Percent

namespace ImportMeter.JsonText

def isBlank (letter : Char) : Bool :=
  letter = ' ' || letter = '\n' || letter = '\t' || letter = '\r'

def skipBlank (text : Text) : Text := text.dropWhile isBlank

/-- Reads the letters of a word. -/
def readWord : List Char → Text → Except JsonFault Text
  | [], rest => .ok rest
  | _ :: _, [] => .error .valueEnds
  | letter :: word, head :: rest => if head = letter then readWord word rest else .error .noWord

def hexValue? (letter : Char) : Option Nat :=
  if letter.toNat < 0x80 then (Text.hexDigit? letter.toNat.toUInt8).map UInt8.toNat else none

/-- Reads the four hexadecimal digits of an escape. -/
def readQuad (text : Text) : Except JsonFault (Nat × Text) :=
  match (text.take 4).mapM hexValue? with
  | some [first, second, third, fourth] =>
    .ok (((first * 16 + second) * 16 + third) * 16 + fourth, text.drop 4)
  | _ => .error (if Text.utf8Length (text.take 4) < 4 then .textEnds else .invalidEscape)

/-- What a letter behind a backslash stands for, if it stands for one character. -/
def plainEscape? (letter : Char) : Option Char :=
  if letter = '\x22' || letter = '\\' || letter = '/' then some letter
  else if letter = 'b' then some '\x08'
  else if letter = 'f' then some '\x0c'
  else if letter = 'n' then some '\n'
  else if letter = 'r' then some '\r'
  else if letter = 't' then some '\t'
  else none

/-- Reads the second half of a surrogate pair. -/
def readLowSurrogate (high : Nat) : Text → Except JsonFault (Char × Text)
  | [] => .error .textEnds
  | ['\\'] => .error .textEnds
  | '\\' :: 'u' :: rest => do
    let (low, rest) ← readQuad rest
    if low < 0xdc00 || low > 0xdfff then .error .loneSurrogate
    else .ok (Char.ofNat (0x10000 + (high - 0xd800) * 0x400 + (low - 0xdc00)), rest)
  | _ => .error .unpairedSurrogate

/-- Reads an escape behind its backslash. -/
def readEscape : Text → Except JsonFault (Char × Text)
  | [] => .error .textEnds
  | 'u' :: rest => do
    let (unit, rest) ← readQuad rest
    if 0xdc00 ≤ unit && unit ≤ 0xdfff then .error .loneSurrogate
    else if 0xd800 ≤ unit && unit ≤ 0xdbff then readLowSurrogate unit rest
    else .ok (Char.ofNat unit, rest)
  | letter :: rest =>
    match plainEscape? letter with
    | some meant => .ok (meant, rest)
    | none => .error .invalidEscape

/-- Reads an escape of a string that nobody wants. Surrogates need no partner there. -/
def skipEscape : Text → Except JsonFault (Char × Text)
  | 'u' :: rest => (readQuad rest).map fun (_, rest) => (' ', rest)
  | text => readEscape text

/-- Reads a string behind its opening quote; `letters` are those read before, the last one first. -/
def readLetters (escape : Text → Except JsonFault (Char × Text)) :
    Nat → Text → Text → Except JsonFault (Text × Text)
  | 0, _, _ => .error .textEnds
  | _ + 1, _, [] => .error .textEnds
  | fuel + 1, letters, letter :: rest =>
    if letter = '\x22' then .ok (letters.reverse, rest)
    else if letter = '\\' then
      match escape rest with
      | .ok (meant, rest) => readLetters escape fuel (meant :: letters) rest
      | .error fault => .error fault
    else if letter < ' ' then .error .controlCharacter
    else readLetters escape fuel (letter :: letters) rest

/-- Reads a string behind its opening quote. -/
def readText (text : Text) : Except JsonFault (Text × Text) :=
  readLetters readEscape (text.length + 1) [] text

/-- Passes over a string behind its opening quote. -/
def skipText (text : Text) : Except JsonFault Text :=
  (readLetters skipEscape (text.length + 1) [] text).map Prod.snd

/-- Appends digits to a number as long as it fits into 64 bits, and gives the digits left over. -/
def absorb (number : Nat) : Text → Nat × Text
  | [] => (number, [])
  | digit :: rest =>
    let next := number * 10 + (digit.toNat - 0x30)
    if next < Nat.pow 2 64 then absorb next rest else (number, digit :: rest)

def powerOfTen (power : Nat) : Float := Float.ofScientific 1 false power

/-- A number times a power of ten in floating point. A power that is too small is applied in parts. -/
def scale : Nat → Float → Int → Except JsonFault Float
  | 0, number, _ => .ok number
  | fuel + 1, number, power =>
    if power.natAbs ≤ 308 then
      if power < 0 then .ok (number / powerOfTen power.natAbs)
      else
        let scaled := number * powerOfTen power.natAbs
        if scaled.isInf then .error .numberOutOfRange else .ok scaled
    else if number == 0.0 then .ok number
    else if power < 0 then scale fuel (number / powerOfTen 308) (power + 308)
    else .error .numberOutOfRange

/-- The number made of a sign, a whole number and a power of ten. -/
def floatOf (negative : Bool) (significand : Nat) (power : Int) : Except JsonFault JsonNumber :=
  (scale 4 significand.toUInt64.toFloat power).map fun number =>
    .float (if negative then -number else number)

/-- Reads the digits of an exponent behind its letter and sign, and gives the number that has the
exponent added to a power it has already. -/
def readExponentDigits (negative : Bool) (significand : Nat) (power : Int) (shrinks : Bool)
    (text : Text) : Except JsonFault (JsonNumber × Text) := do
  let digits := text.takeWhile Char.isDigit
  if digits = [] then
    .error (if text = [] then .valueEnds else .invalidNumber)
  let rest := text.dropWhile Char.isDigit
  let exponent := Nat.ofDigitChars 10 digits 0
  if exponent < Nat.pow 2 31 then
    let number ← floatOf negative significand
      (if shrinks then power - exponent else power + exponent)
    .ok (number, rest)
  else if significand ≠ 0 && !shrinks then .error .numberOutOfRange
  else .ok (.float (if negative then -0.0 else 0.0), rest)

/-- Reads what may follow the digits of a number: an exponent. -/
def readExponent (negative : Bool) (significand : Nat) (power : Int) (text : Text) :
    Except JsonFault (JsonNumber × Text) :=
  match text with
  | 'e' :: '+' :: rest | 'E' :: '+' :: rest =>
    readExponentDigits negative significand power false rest
  | 'e' :: '-' :: rest | 'E' :: '-' :: rest =>
    readExponentDigits negative significand power true rest
  | 'e' :: rest | 'E' :: rest => readExponentDigits negative significand power false rest
  | rest => (floatOf negative significand power).map (·, rest)

/-- The integer of some magnitude, if it fits into 64 bits. A zero with a sign does not count. -/
def integer? (negative : Bool) (magnitude : Nat) : Option Int :=
  if !negative then some magnitude
  else if magnitude ≠ 0 && magnitude ≤ Nat.pow 2 63 then some (-magnitude)
  else none

/-- Reads a number behind its sign. Digits that do not fit into 64 bits count as zeros. -/
def readNumber (negative : Bool) (text : Text) : Except JsonFault (JsonNumber × Text) := do
  let digits := text.takeWhile Char.isDigit
  let rest := text.dropWhile Char.isDigit
  if digits = [] then .error (if text = [] then .valueEnds else .invalidNumber)
  if digits.head? = some '0' && digits.length > 1 then .error .invalidNumber
  let (significand, left) := absorb 0 digits
  match rest with
  | '.' :: rest =>
    let places := rest.takeWhile Char.isDigit
    let rest := rest.dropWhile Char.isDigit
    if places = [] then .error (if rest = [] then .valueEnds else .invalidNumber)
    let (significand, dropped) := absorb significand places
    readExponent negative significand (left.length - (places.length - dropped.length : Nat)) rest
  | 'e' :: _ | 'E' :: _ => readExponent negative significand left.length rest
  | _ =>
    if left = [] then
      match integer? negative significand with
      | some value => .ok (.integer value, rest)
      | none => .ok (.float (-significand.toUInt64.toFloat), rest)
    else readExponent negative significand left.length rest

/-- Passes over digits of which there has to be one. -/
def skipDigits (text : Text) : Except JsonFault Text :=
  match text with
  | [] => .error .invalidNumber
  | letter :: _ =>
    if letter.isDigit then .ok (text.dropWhile Char.isDigit) else .error .invalidNumber

/-- Passes over a number behind its sign. -/
def skipNumber (text : Text) : Except JsonFault Text := do
  let digits := text.takeWhile Char.isDigit
  if digits.head? = some '0' && digits.length > 1 then .error .invalidNumber
  let rest ← skipDigits text
  let rest ← match rest with
    | '.' :: rest => skipDigits rest
    | rest => .ok rest
  match rest with
  | 'e' :: '+' :: rest | 'E' :: '+' :: rest | 'e' :: '-' :: rest | 'E' :: '-' :: rest =>
    skipDigits rest
  | 'e' :: rest | 'E' :: rest => skipDigits rest
  | rest => .ok rest

end ImportMeter.JsonText
