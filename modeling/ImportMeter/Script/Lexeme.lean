/-
This file reads single tokens. Every reader tells how many characters the token at the head of a
text takes, so what a token covers is always a leading part of the text.
-/
import ImportMeter.Script.Character

namespace ImportMeter.Script

/-- The length of the longest leading part whose characters satisfy a test. -/
def runLength (test : Char → Bool) : Text → Nat
  | [] => 0
  | letter :: rest => if test letter then runLength test rest + 1 else 0

/-- The length of a closed `{...}` of hexadecimal digits after its opening brace. -/
def bracedHexLength (text : Text) : Option Nat :=
  let digits := runLength isHex text
  if digits = 0 then none
  else match text.drop digits with
    | '}' :: _ => some (digits + 1)
    | _ => none

/-- The length of a Unicode escape such as `\u0041` or `\u{41}` that stands for a name character. -/
def nameEscapeLength : Text → Option Nat
  | '\\' :: 'u' :: '{' :: rest => (bracedHexLength rest).map (· + 3)
  | '\\' :: 'u' :: rest => if 4 ≤ runLength isHex rest then some 6 else none
  | _ => none

/-- The length of what continues a name; `pending` characters belong to an escape already seen. -/
def nameTailLength (pending : Nat) : Text → Nat
  | [] => 0
  | letter :: rest =>
    match pending with
    | pending + 1 => nameTailLength pending rest + 1
    | 0 =>
      if isNamePart letter then nameTailLength 0 rest + 1
      else match nameEscapeLength (letter :: rest) with
        | some (length + 1) => nameTailLength length rest + 1
        | _ => 0

/-- The length of the name at the head of a text. -/
def nameLength (text : Text) : Option Nat :=
  match text with
  | [] => none
  | letter :: _ =>
    if isNameStart letter || (nameEscapeLength text).isSome then some (nameTailLength 0 text)
    else none

/-- The length of a name that begins with `#`. -/
def privateNameLength : Text → Option Nat
  | '#' :: rest => (nameLength rest).map (· + 1)
  | _ => none

/-- The length of a tag or attribute name, which may hold hyphens after an ASCII name. -/
def markupNameLength (text : Text) : Option Nat :=
  let isStart := fun letter => isLetter letter || letter = '_' || letter = '$'
  let isPart := fun letter => isStart letter || isDigit letter
  let plain := runLength isPart text
  match text, text.drop plain with
  | first :: _, '-' :: rest =>
    if isStart first then
      some (plain + 1 + runLength (fun letter => isPart letter || letter = '-') rest)
    else nameLength text
  | _, _ => nameLength text

/-- The length of further digits, each of which may follow one underscore. -/
def digitTailLength (test : Char → Bool) : Text → Nat
  | '_' :: letter :: rest => if test letter then digitTailLength test rest + 2 else 0
  | letter :: rest => if test letter then digitTailLength test rest + 1 else 0
  | [] => 0

/-- The length of digits with single underscores between them. -/
def digitsLength (test : Char → Bool) : Text → Option Nat
  | letter :: rest => if test letter then some (digitTailLength test rest + 1) else none
  | [] => none

/-- The length of an exponent such as `e-7`. -/
def exponentLength : Text → Option Nat
  | letter :: rest =>
    if letter = 'e' || letter = 'E' then
      match rest with
      | '-' :: digits => (digitsLength isDigit digits).map (· + 2)
      | '+' :: digits => (digitsLength isDigit digits).map (· + 2)
      | digits => (digitsLength isDigit digits).map (· + 1)
    else none
  | [] => none

/-- The length of the whole part that may stand before a point or an exponent: a lone `0`, or digits
that begin with `1` to `9` after at most one `0`. -/
def wholePartLength : Text → Option Nat
  | '0' :: letter :: rest =>
    if isDigit letter && letter ≠ '0' then some (digitTailLength isDigit rest + 2) else some 1
  | ['0'] => some 1
  | letter :: rest => if isDigit letter then some (digitTailLength isDigit rest + 1) else none
  | [] => none

/-- The length of what may follow the point of a decimal number. -/
def fractionLength (text : Text) : Nat :=
  let digits := (digitsLength isDigit text).getD 0
  digits + (exponentLength (text.drop digits)).getD 0

/-- The length of a decimal number with a point or an exponent. -/
def decimalLength (text : Text) : Option Nat :=
  match text with
  | '.' :: rest =>
    (digitsLength isDigit rest).map fun digits =>
      1 + digits + (exponentLength (rest.drop digits)).getD 0
  | _ =>
    (wholePartLength text).bind fun whole =>
      match text.drop whole with
      | '.' :: rest => some (whole + 1 + fractionLength rest)
      | rest => (exponentLength rest).map (whole + ·)

/-- The length of an integer in a base with a letter, such as `0xff`. -/
def radixLength : Text → Option Nat
  | '0' :: letter :: rest =>
    if letter = 'x' || letter = 'X' then (digitsLength isHex rest).map (· + 2)
    else if letter = 'b' || letter = 'B' then
      (digitsLength (fun digit => digit = '0' || digit = '1') rest).map (· + 2)
    else if letter = 'o' || letter = 'O' then (digitsLength isOctal rest).map (· + 2)
    else none
  | _ => none

/-- The length of an integer, with the `n` that makes it a big one. -/
def integerLength (text : Text) : Option Nat :=
  (radixLength text <|> digitsLength isDigit text).map fun digits =>
    match text.drop digits with
    | 'n' :: _ => digits + 1
    | _ => digits

/-- The length of the longest number at the head of a text. -/
def numberLength (text : Text) : Option Nat :=
  match decimalLength text, integerLength text with
  | some first, some second => some (max first second)
  | some first, none => some first
  | none, second => second

/-- The length of an escape in a string or a template. -/
def escapeLength : Text → Option Nat
  | '\\' :: 'x' :: rest => if 2 ≤ runLength isHex rest then some 4 else none
  | '\\' :: 'u' :: '{' :: rest => (bracedHexLength rest).map (· + 3)
  | '\\' :: 'u' :: rest => if 4 ≤ runLength isHex rest then some 6 else none
  | '\\' :: letter :: rest =>
    if isOctal letter then some (1 + min 3 (runLength isOctal (letter :: rest)))
    else if letter = '\r' || letter = '?' then
      match rest with
      | next :: _ => if isLineEnd next then some 3 else some 2
      | [] => some 2
    else some 2
  | _ => none

/-- The length of plain text in a string closed by `quote`. -/
def fragmentLength (quote : Char) (text : Text) : Option Nat :=
  match runLength (fun letter =>
      letter ≠ quote && letter ≠ '\\' && letter ≠ '\r' && letter ≠ '\n') text with
  | 0 => none
  | length => some length

/-- The length of the characters of a template up to its end, an escape or a substitution. A template
that is never closed has none. -/
def templateTextLength : Text → Option Nat
  | [] => none
  | '$' :: '{' :: _ => some 0
  | letter :: rest =>
    if letter = '\x60' || letter = '\\' then some 0
    else if isNul letter then none
    else (templateTextLength rest).map (· + 1)

/-- The length of a character reference such as `&amp;` or `&#x41;`. -/
def referenceLength : Text → Option Nat
  | '&' :: '#' :: rest =>
    match rest with
    | letter :: digits =>
      if letter = 'x' || letter = 'X' then closed 3 (runLength isHex digits) 6 digits
      else closed 2 (runLength isDigit rest) 5 rest
    | [] => none
  | '&' :: rest => closed 1 (runLength isLetter rest) 30 rest
  | _ => none
where
  /-- A run of one to `most` characters that a semicolon closes. -/
  closed (before run most : Nat) (text : Text) : Option Nat :=
    if run = 0 || most < run then none
    else match text.drop run with
      | ';' :: _ => some (before + run + 1)
      | _ => none

/-- The length of plain text in an attribute string closed by `quote`. -/
def attributeTextLength (quote : Char) (text : Text) : Option Nat :=
  match length text with
  | 0 => none
  | length => some length
where
  /-- An ampersand is plain text unless a letter or `#` follows; it takes the next character along. -/
  length : Text → Nat
    | '&' :: letter :: rest =>
      if letter = '#' || isLetter letter then 0 else length rest + 2
    | letter :: rest => if letter = quote || letter = '&' then 0 else length rest + 1
    | [] => 0

/-- The length of text between tags. -/
def markupTextLength (text : Text) : Option Nat :=
  match runLength (fun letter =>
      letter ≠ '<' && letter ≠ '>' && letter ≠ '{' && letter ≠ '}' && letter ≠ '&') text with
  | 0 => none
  | length => some length

/-- The length of a regular expression's body, up to the slash that closes it. -/
def regexBodyLength (inClass escaped : Bool) : Text → Option Nat
  | [] => none
  | letter :: rest =>
    if letter = '\n' then none
    else if escaped then (regexBodyLength inClass false rest).map (· + 1)
    else if letter = '\\' then (regexBodyLength inClass true rest).map (· + 1)
    else if inClass then (regexBodyLength (letter ≠ ']') false rest).map (· + 1)
    else if letter = '/' then some 0
    else (regexBodyLength (letter = '[') false rest).map (· + 1)

/-- The length of the longest operator or punctuation at the head of a text. -/
def punctuationLength : Text → Nat
  | '>' :: '>' :: '>' :: '=' :: _ => 4
  | '.' :: '.' :: '.' :: _ | '=' :: '=' :: '=' :: _ | '!' :: '=' :: '=' :: _
  | '*' :: '*' :: '=' :: _ | '<' :: '<' :: '=' :: _ | '>' :: '>' :: '=' :: _
  | '>' :: '>' :: '>' :: _ | '&' :: '&' :: '=' :: _ | '|' :: '|' :: '=' :: _
  | '?' :: '?' :: '=' :: _ => 3
  | '?' :: '.' :: letter :: _ => if isDigit letter then 1 else 2
  | '=' :: '>' :: _ | '=' :: '=' :: _ | '!' :: '=' :: _ | '<' :: '=' :: _ | '>' :: '=' :: _
  | '&' :: '&' :: _ | '|' :: '|' :: _ | '?' :: '?' :: _ | '?' :: '.' :: _
  | '+' :: '+' :: _ | '-' :: '-' :: _ | '+' :: '=' :: _ | '-' :: '=' :: _ | '*' :: '=' :: _
  | '/' :: '=' :: _ | '%' :: '=' :: _ | '&' :: '=' :: _ | '|' :: '=' :: _ | '^' :: '=' :: _
  | '<' :: '<' :: _ | '>' :: '>' :: _ | '*' :: '*' :: _ => 2
  | _ :: _ => 1
  | [] => 0

/-- The tokens a grammar asks for. -/
inductive Lexeme where
  /-- Punctuation, and only where no longer punctuation stands. -/
  | mark (letters : Text)
  /-- One of several operators, each only where no longer one stands. -/
  | markAmong (choices : List Text)
  /-- The very characters, whatever follows. -/
  | exact (letters : Text)
  /-- A keyword. -/
  | word (letters : Text)
  /-- One of several keywords. -/
  | wordAmong (choices : List Text)
  /-- A name that is none of the listed words. -/
  | name (reserved : List Text)
  | privateName
  | markupName
  | number
  | escape
  | fragment (quote : Char)
  | attributeText (quote : Char)
  | reference
  | templateText
  | markupText
  | regexOpen
  | regexBody
  | regexFlags
  | hashBang

namespace Lexeme

/-- The length of a token at the head of a text, if it is the one asked for. -/
def length? (text : Text) : Lexeme → Option Nat
  | .mark letters =>
    if text.startsWith letters && punctuationLength text = letters.length then
      some letters.length
    else none
  | .markAmong choices =>
    let length := punctuationLength text
    if choices.contains (text.take length) then some length else none
  | .exact letters => if text.startsWith letters then some letters.length else none
  | .word letters => if nameLength text = some letters.length && text.startsWith letters then
      some letters.length
    else none
  | .wordAmong choices =>
    (nameLength text).bind fun length =>
      if choices.contains (text.take length) then some length else none
  | .name reserved =>
    (nameLength text).bind fun length =>
      if reserved.contains (text.take length) then none else some length
  | .privateName => privateNameLength text
  | .markupName => markupNameLength text
  | .number => numberLength text
  | .escape => escapeLength text
  | .fragment quote => fragmentLength quote text
  | .attributeText quote => attributeTextLength quote text
  | .reference => referenceLength text
  | .templateText =>
    match templateTextLength text with
    | some (length + 1) => some (length + 1)
    | _ => none
  | .markupText => markupTextLength text
  | .regexOpen =>
    match text with
    | '/' :: '/' :: _ | '/' :: '*' :: _ => none
    | '/' :: _ => some 1
    | _ => none
  | .regexBody =>
    match regexBodyLength false false text with
    | some (length + 1) => some (length + 1)
    | _ => none
  | .regexFlags =>
    match runLength (fun letter => 'a' ≤ letter && letter ≤ 'z') text with
    | 0 => none
    | length => some length
  | .hashBang =>
    match text with
    | '#' :: '!' :: rest => some (2 + runLength (· ≠ '\n') rest)
    | _ => none

end Lexeme

end ImportMeter.Script
