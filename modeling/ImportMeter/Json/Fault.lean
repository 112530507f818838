/-
This file lists what can be wrong with a JSON text. Places in the text are not tracked and are
written as question marks.
-/
import ImportMeter.Decimal.Shortest
import ImportMeter.Json.Basic
import ImportMeter.Text.Quoted

namespace ImportMeter

/-- How the numbers of JSON texts are written: with a point and a fraction as long as at most
sixteen digits stand in front of the point and at most four zeros behind it, else with an exponent. -/
def JsonNumber.digitsText (digits : Decimal.Digits) : Text :=
  let text := Nat.toDigits 10 digits.significand
  let point := text.length + digits.exponent
  if 0 ≤ digits.exponent && point ≤ 16 then
    text ++ List.replicate digits.exponent.toNat '0' ++ ['.', '0']
  else if 0 < point && point ≤ 16 then
    text.take point.toNat ++ '.' :: text.drop point.toNat
  else if -5 < point && point ≤ 0 then
    ['0', '.'] ++ List.replicate (-point).toNat '0' ++ text
  else
    let power := point - 1
    let exponent := 'e' :: (if power < 0 then ['-'] else []) ++ Nat.toDigits 10 power.natAbs
    match text with
    | [digit] => digit :: exponent
    | digit :: rest => digit :: '.' :: rest ++ exponent
    | [] => exponent

/-- The shortest text of a floating-point number. What JSON cannot write is null. -/
def JsonNumber.floatText (number : Float) : Text :=
  let exact := Decimal.Exact.ofFloat number
  let sign := if exact.negative then ['-'] else []
  match exact.magnitude with
  | .finite 0 _ => sign ++ ['0', '.', '0']
  | .finite significand exponent =>
    sign ++ digitsText (Decimal.shortest significand exponent)
  | _ => "null".toList

def JsonNumber.integerText (value : Int) : Text :=
  (if value < 0 then ['-'] else []) ++ Nat.toDigits 10 value.natAbs

/-- What stands in a text where something else was expected. -/
inductive JsonFound where
  | null
  | boolean (value : Bool)
  | number (value : JsonNumber)
  | text (value : Text)
  | list
  | object

namespace JsonFound

def message : JsonFound → Text
  | .null => "null".toList
  | .boolean true => "boolean \x60true\x60".toList
  | .boolean false => "boolean \x60false\x60".toList
  | .number (.integer value) =>
    "integer \x60".toList ++ JsonNumber.integerText value ++ ['\x60']
  | .number (.float value) =>
    "floating point \x60".toList ++ JsonNumber.floatText value ++ ['\x60']
  | .text value => "string ".toList ++ value.quoted
  | .list => "sequence".toList
  | .object => "map".toList

end JsonFound

/-- What can be expected of a JSON text. -/
inductive JsonWanted where
  | text
  | manifest

def JsonWanted.message : JsonWanted → Text
  | .text => "a string".toList
  | .manifest => "struct PackageManifest".toList

inductive JsonFault where
  | valueEnds
  | objectEnds
  | listEnds
  | textEnds
  | noValue
  | noWord
  | noColon
  | noObjectComma
  | noListComma
  | trailingComma
  | trailingCharacters
  | nameNotText
  | invalidNumber
  | numberOutOfRange
  | invalidEscape
  | loneSurrogate
  | unpairedSurrogate
  | controlCharacter
  | tooDeep
  | wrongType (found : JsonFound) (wanted : JsonWanted)
  | repeatedField (name : Text)
  | noWorkspaceForm

namespace JsonFault

/-- What is wrong, without the place. -/
def reason : JsonFault → Text
  | .valueEnds => "EOF while parsing a value".toList
  | .objectEnds => "EOF while parsing an object".toList
  | .listEnds => "EOF while parsing a list".toList
  | .textEnds => "EOF while parsing a string".toList
  | .noValue => "expected value".toList
  | .noWord => "expected ident".toList
  | .noColon => "expected \x60:\x60".toList
  | .noObjectComma => "expected \x60,\x60 or \x60\x7d\x60".toList
  | .noListComma => "expected \x60,\x60 or \x60]\x60".toList
  | .trailingComma => "trailing comma".toList
  | .trailingCharacters => "trailing characters".toList
  | .nameNotText => "key must be a string".toList
  | .invalidNumber => "invalid number".toList
  | .numberOutOfRange => "number out of range".toList
  | .invalidEscape => "invalid escape".toList
  | .loneSurrogate => "lone leading surrogate in hex escape".toList
  | .unpairedSurrogate => "unexpected end of hex escape".toList
  | .controlCharacter =>
    "control character (\\u0000-\\u001F) found while parsing a string".toList
  | .tooDeep => "recursion limit exceeded".toList
  | .wrongType found wanted =>
    "invalid type: ".toList ++ found.message ++ ", expected ".toList ++ wanted.message
  | .repeatedField name => "duplicate field \x60".toList ++ name ++ ['\x60']
  | .noWorkspaceForm => "data did not match any variant of untagged enum Workspaces".toList

def message (fault : JsonFault) : Text := fault.reason ++ " at line ? column ?".toList

end JsonFault

end ImportMeter
