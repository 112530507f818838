/-
This file reads the keys, strings and plain values of TOML texts, and passes over blanks and comments.
-/
import ImportMeter.Json.Lexeme
import ImportMeter.Toml.Table

namespace ImportMeter.TomlText

def isBlank (letter : Char) : Bool := letter = ' ' || letter = '\t'

def skipBlank (text : Text) : Text := text.dropWhile isBlank

/-- True for the letters that may stand in comments and literal strings, quotes included. -/
def isVisible (letter : Char) : Bool :=
  letter = '\t' || (' ' ≤ letter && letter ≠ '\x7f')

/-- Passes over a comment up to the end of its line, if there is one. -/
def skipComment (text : Text) : Text :=
  if text.head? = some '#' then text.dropWhile isVisible else text

/-- Passes over a line break, if there is one. -/
def lineBreak? : Text → Option Text
  | '\n' :: rest => some rest
  | '\r' :: '\n' :: rest => some rest
  | _ => none

/-- Passes over the end of a line or of the text. -/
def lineEnd? (text : Text) : Option Text :=
  if text = [] then some [] else lineBreak? text

/-- Passes over what may stand behind a statement: blanks, a comment and the end of the line. -/
def finishLine? (text : Text) : Option Text := lineEnd? (skipComment (skipBlank text))

/-- Passes over blanks, comments and line breaks, at most `fuel` lines of them. -/
def skipFiller : Nat → Text → Text
  | 0, text => text
  | fuel + 1, text =>
    let rest := skipComment (skipBlank text)
    match lineBreak? rest with
    | some rest => skipFiller fuel rest
    | none => rest

/-- Reads so many hexadecimal digits as the code of a character. -/
def readCode? (digits : Nat) (text : Text) : Option (Char × Text) := do
  let values ← (text.take digits).mapM JsonText.hexValue?
  if values.length < digits then none
  let code := values.foldl (fun code value => code * 16 + value) 0
  if code < 0xd800 || (0xdfff < code && code < 0x110000) then
    some (Char.ofNat code, text.drop digits)
  else none

/-- Reads an escape behind its backslash. -/
def readEscape? : Text → Option (Char × Text)
  | 'u' :: rest => readCode? 4 rest
  | 'U' :: rest => readCode? 8 rest
  | '/' :: _ => none
  | letter :: rest => (JsonText.plainEscape? letter).map (·, rest)
  | [] => none

/-- Passes over a backslash's line break and the blanks and line breaks behind it. -/
def skipFold? (text : Text) : Option Text :=
  (lineBreak? (skipBlank text)).map fun rest =>
    rest.dropWhile fun letter => isBlank letter || letter = '\n' || letter = '\r'

/-- Reads a string on one line behind its opening quote. -/
def readLine? (isLiteral : Bool) (quote : Char) : Nat → Text → Text → Option (Text × Text)
  | 0, _, _ => none
  | _ + 1, _, [] => none
  | fuel + 1, letters, letter :: rest =>
    if letter = quote then some (letters.reverse, rest)
    else if letter = '\\' && !isLiteral then
      match readEscape? rest with
      | some (meant, rest) => readLine? isLiteral quote fuel (meant :: letters) rest
      | none => none
    else if isVisible letter then readLine? isLiteral quote fuel (letter :: letters) rest
    else none

/-- Reads a string over several lines behind its opening quotes. It ends with three quotes, in front of
which two more may belong to it. -/
def readLines? (isLiteral : Bool) (quote : Char) : Nat → Text → Text → Option (Text × Text)
  | 0, _, _ => none
  | _ + 1, _, [] => none
  | fuel + 1, letters, letter :: rest =>
    if letter = quote then
      let count := min 5 ((rest.takeWhile (· = quote)).length + 1)
      if count < 3 then readLines? isLiteral quote fuel (letter :: letters) rest
      else some (letters.reverse ++ List.replicate (count - 3) quote, rest.drop (count - 1))
    else if letter = '\\' && !isLiteral then
      match skipFold? rest with
      | some rest => readLines? isLiteral quote fuel letters rest
      | none =>
        match readEscape? rest with
        | some (meant, rest) => readLines? isLiteral quote fuel (meant :: letters) rest
        | none => none
    else match lineBreak? (letter :: rest) with
      | some rest => readLines? isLiteral quote fuel ('\n' :: letters) rest
      | none =>
        if isVisible letter then readLines? isLiteral quote fuel (letter :: letters) rest
        else none

/-- Reads a string from its opening quote on. -/
def readText? (text : Text) : Option (Text × Text) :=
  match text with
  | first :: second :: third :: rest =>
    if first = second && second = third then
      readLines? (first = '\x27') first (text.length + 1) [] ((lineBreak? rest).getD rest)
    else readLine? (first = '\x27') first (text.length + 1) [] (second :: third :: rest)
  | first :: rest => readLine? (first = '\x27') first (text.length + 1) [] rest
  | [] => none

def isKeyLetter (letter : Char) : Bool := letter.isAlphanum || letter = '_' || letter = '-'

/-- Reads one piece of a key. -/
def readSimpleKey? (text : Text) : Option (Text × Text) :=
  match text with
  | [] => none
  | letter :: rest =>
    if letter = '\x22' || letter = '\x27' then
      readLine? (letter = '\x27') letter (text.length + 1) [] rest
    else
      let key := text.takeWhile isKeyLetter
      if key = [] then none else some (key, text.dropWhile isKeyLetter)

/-- A key has fewer pieces than this. -/
def keyBound : Nat := 80

/-- Reads the pieces of a key and the blanks around it, at most `fuel` pieces. -/
def readKey? : Nat → Text → Option (List Text × Text)
  | 0, _ => none
  | fuel + 1, text => do
    let (key, rest) ← readSimpleKey? (skipBlank text)
    match skipBlank rest with
    | '.' :: rest =>
      let (keys, rest) ← readKey? fuel rest
      some (key :: keys, rest)
    | rest => some ([key], rest)

/-- Passes over digits of which single underscores may stand between two, and gives the digits. -/
def digitRun (isDigit : Char → Bool) : Text → Text × Text
  | [] => ([], [])
  | letter :: rest =>
    if isDigit letter then
      match rest with
      | '_' :: next :: rest =>
        if isDigit next then
          let (digits, rest) := digitRun isDigit (next :: rest)
          (letter :: digits, rest)
        else ([letter], '_' :: next :: rest)
      | rest =>
        let (digits, rest) := digitRun isDigit rest
        (letter :: digits, rest)
    else ([], letter :: rest)

/-- Reads so many decimal digits as a number. -/
def readDigits? (count : Nat) (text : Text) : Option (Nat × Text) :=
  let digits := text.take count
  if digits.length = count && digits.all Char.isDigit then
    some (Nat.ofDigitChars 10 digits 0, text.drop count)
  else none

def daysIn (year month : Nat) : Nat :=
  if month = 2 then
    if year % 4 = 0 && (year % 100 ≠ 0 || year % 400 = 0) then 29 else 28
  else if month = 4 || month = 6 || month = 9 || month = 11 then 30
  else 31

/-- Passes over a time of day. -/
def skipTime? (text : Text) : Option Text :=
  match readDigits? 2 text with
  | some (hour, ':' :: rest) =>
    match readDigits? 2 rest with
    | some (minute, ':' :: rest) =>
      match readDigits? 2 rest with
      | some (second, rest) =>
        if hour ≤ 23 && minute ≤ 59 && second ≤ 60 then
          match rest with
          | '.' :: digit :: rest =>
            if digit.isDigit then some (rest.dropWhile Char.isDigit) else none
          | rest => some rest
        else none
      | none => none
    | _ => none
  | _ => none

/-- Passes over what may follow the time of a date: its distance from universal time. -/
def skipOffset (text : Text) : Text :=
  match text with
  | 'Z' :: rest | 'z' :: rest => rest
  | '+' :: rest | '-' :: rest =>
    match readDigits? 2 rest with
    | some (hour, ':' :: rest) =>
      match readDigits? 2 rest with
      | some (minute, rest) => if hour ≤ 23 && minute ≤ 59 then rest else text
      | none => text
    | _ => text
  | _ => text

/-- Passes over a date, and over a time behind it. -/
def skipDate? (text : Text) : Option Text :=
  match readDigits? 4 text with
  | some (year, '-' :: rest) =>
    match readDigits? 2 rest with
    | some (month, '-' :: rest) =>
      match readDigits? 2 rest with
      | some (day, rest) =>
        if 1 ≤ month && month ≤ 12 && 1 ≤ day && day ≤ daysIn year month then
          match rest with
          | separator :: behind =>
            if separator = 'T' || separator = 't' || separator = ' ' then
              some (((skipTime? behind).map skipOffset).getD rest)
            else some rest
          | [] => some []
        else none
      | none => none
    | _ => none
  | _ => none

def isBinaryDigit (letter : Char) : Bool := letter = '0' || letter = '1'

def isOctalDigit (letter : Char) : Bool := '0' ≤ letter && letter ≤ '7'

def isHexDigit (letter : Char) : Bool := (JsonText.hexValue? letter).isSome

/-- Passes over an integer written in another base, behind what names the base. -/
def skipBased? (base : Nat) (isDigit : Char → Bool) (text : Text) : Option Text :=
  let (digits, rest) := digitRun isDigit text
  let value := digits.foldl
    (fun value digit => value * base + (JsonText.hexValue? digit).getD 0) 0
  if digits = [] || value ≥ Nat.pow 2 63 then none else some rest

/-- Passes over the exponent of a number, if there is one. -/
def skipExponent (text : Text) : Option Text :=
  let behind := match text with
    | 'e' :: '+' :: rest | 'E' :: '+' :: rest | 'e' :: '-' :: rest | 'E' :: '-' :: rest =>
      some rest
    | 'e' :: rest | 'E' :: rest => some rest
    | _ => none
  match behind with
  | none => some text
  | some rest =>
    let (digits, rest) := digitRun Char.isDigit rest
    if digits = [] then none else some rest

/-- Passes over a decimal number behind its sign. -/
def skipDecimal? (negative : Bool) (text : Text) : Option Text :=
  let (digits, rest) := match text with
    | '0' :: rest => (['0'], rest)
    | text => digitRun Char.isDigit text
  let limit := if negative then Nat.pow 2 63 else Nat.pow 2 63 - 1
  if digits = [] then none
  else match rest with
    | '.' :: rest =>
      let (places, rest) := digitRun Char.isDigit rest
      if places = [] then none else skipExponent rest
    | 'e' :: _ | 'E' :: _ => skipExponent rest
    | _ => if Nat.ofDigitChars 10 digits 0 ≤ limit then some rest else none

/-- Passes over a word, if the text begins with it. -/
def skipWord? (word text : Text) : Option Text := Text.dropFront? text word

/-- Passes over a number behind its sign. -/
def skipSigned? (negative : Bool) (text : Text) : Option Text :=
  (skipWord? ['i', 'n', 'f'] text).or
    ((skipWord? ['n', 'a', 'n'] text).or (skipDecimal? negative text))

/-- Passes over a value that is no string, list or table. -/
def skipPlain? (text : Text) : Option Text :=
  match text with
  | 't' :: rest => skipWord? ['r', 'u', 'e'] rest
  | 'f' :: rest => skipWord? ['a', 'l', 's', 'e'] rest
  | '+' :: rest => skipSigned? false rest
  | '-' :: rest => skipSigned? true rest
  | '0' :: 'x' :: rest => skipBased? 16 isHexDigit rest
  | '0' :: 'o' :: rest => skipBased? 8 isOctalDigit rest
  | '0' :: 'b' :: rest => skipBased? 2 isBinaryDigit rest
  | text => (skipDate? text).or ((skipTime? text).or (skipSigned? false text))

end ImportMeter.TomlText
