/-
This file reads what stands between tokens, white space and comments, and decides where a missing
semicolon counts as written.
-/
import ImportMeter.Script.Lexeme
import ImportMeter.Script.Tree

namespace ImportMeter.Script

/-- The length of a block comment after its opening, its close included. -/
def blockCommentTail : Text → Option Nat
  | '*' :: '/' :: _ => some 2
  | _ :: rest => (blockCommentTail rest).map (· + 1)
  | [] => none

/-- The kind and length of the comment at the head of a text. Markup comments, which run to the end
of their line, count only where `markup` allows them. -/
def commentLength (markup : Bool) : Text → Option (Kind × Nat)
  | '/' :: '/' :: rest =>
    some (.comment, 2 + runLength (fun letter => letter ≠ '\r' && !isLineEnd letter) rest)
  | '/' :: '*' :: rest => (blockCommentTail rest).map fun length => (.comment, length + 2)
  | '<' :: '!' :: '-' :: '-' :: rest => if markup then some (.htmlComment, 4 + toLineEnd rest) else none
  | '-' :: '-' :: '>' :: rest => if markup then some (.htmlComment, 3 + toLineEnd rest) else none
  | _ => none
where
  toLineEnd (text : Text) : Nat :=
    runLength (fun letter => !isLineEnd letter && !isNul letter) text

/-- What a text begins with, and what follows it. -/
def blanksOf (text : Text) : List Tree × Text :=
  match runLength isBlank text with
  | 0 => ([], text)
  | length => ([.leaf none .blank (text.take length)], text.drop length)

/-- White space and then at most one comment; `none` if there is no comment. -/
def commentOf (markup : Bool) (text : Text) : Option (List Tree × Text) :=
  let (blanks, rest) := blanksOf text
  (commentLength markup rest).map fun (kind, length) =>
    (blanks ++ [.leaf none kind (rest.take length)], rest.drop length)

/-- All white space and comments at the head of a text, at most `fuel` comments of them. -/
def gapOf (markup : Bool) : Nat → Text → List Tree × Text
  | 0, text => ([], text)
  | fuel + 1, text =>
    match commentOf markup text with
    | some (trees, rest) =>
      let (more, last) := gapOf markup fuel rest
      (trees ++ more, last)
    | none => blanksOf text

/-- How a look across white space and comments ends. -/
inductive Glance where
  /-- At a slash that begins no comment. -/
  | blocked
  /-- Right behind a block comment that lies on one line. -/
  | sameLine (rest : Text)
  /-- At the next token, or behind a block comment that spans lines. -/
  | arrived (rest : Text)

/-- Looks for the end of a block comment. Tells whether a line end was passed, and what follows the
comment if it is closed. -/
def glanceBlock (sawLineEnd : Bool) : Text → Bool × Option Text
  | [] => (sawLineEnd, none)
  | '*' :: '/' :: rest => (sawLineEnd, some rest)
  | letter :: rest =>
    if isNul letter then (sawLineEnd, none)
    else glanceBlock (sawLineEnd || isLineEnd letter) rest

/-- Looks across white space and comments. Unless `through` is set, the look stops behind a block
comment that no slash follows. -/
def glance (through : Bool) : Nat → Bool → Text → Glance
  | 0, _, text => .arrived text
  | fuel + 1, sawLineEnd, text =>
    match text.dropWhile isPlainBlank with
    | '/' :: '/' :: rest =>
      glance through fuel sawLineEnd
        (rest.dropWhile fun letter => !isNul letter && !isLineEnd letter)
    | '/' :: '*' :: rest =>
      match glanceBlock sawLineEnd rest with
      | (_, none) => .arrived []
      | (saw, some after) =>
        if through || after.head? = some '/' then glance through fuel saw after
        else if saw then .arrived after
        else .sameLine after
    | '/' :: _ => .blocked
    | rest => .arrived rest

/-- What may stand at the start of a new line without continuing the statement before it. -/
def startsStatement : Text → Bool
  | [] => true
  | '.' :: rest => beginsWith isDigit rest
  | '+' :: rest => beginsWith (· = '+') rest
  | '-' :: rest => beginsWith (· = '-') rest
  | '!' :: rest => !beginsWith (· = '=') rest
  | 'i' :: 'n' :: rest =>
    if !beginsWith isLetter rest then false
    else match rest with
      | 's' :: 't' :: 'a' :: 'n' :: 'c' :: 'e' :: 'o' :: 'f' :: after => beginsWith isLetter after
      | _ => true
  | letter :: _ =>
    !(letter = '\x60' || letter = ',' || letter = ':' || letter = ';' || letter = '*' ||
      letter = '%' || letter = '>' || letter = '<' || letter = '=' || letter = '[' ||
      letter = '(' || letter = '?' || letter = '^' || letter = '|' || letter = '&' ||
      letter = '/')
where
  beginsWith (test : Char → Bool) : Text → Bool
    | letter :: _ => test letter
    | [] => false

/-- Decides at a character that begins no comment: a closing brace or a line end that does not
continue the statement implies a semicolon, and behind any other blank `again` decides. -/
def impliesAt (fuel : Nat) (again : Text → Bool) : Text → Bool
  | [] => false
  | letter :: rest =>
    if letter = '}' then true
    else if isLineEnd letter then
      match glance true fuel false rest with
      | .blocked => false
      | .sameLine after | .arrived after => startsStatement after
    else isPlainBlank letter && again rest

/-- True where a semicolon may be left out: at the end, before a closing brace, or before a line end
that is followed by something which cannot continue the statement. A comment on the same line that
spans lines or ends its line counts as a line end too, but not behind a complete expression. -/
def impliesSemicolon (afterExpression : Bool) : Nat → Text → Bool
  | 0, _ => false
  | _, [] => true
  | fuel + 1, letter :: rest =>
    if isNul letter then true
    else if letter = '/' then
      match glance false fuel false (letter :: rest) with
      | .blocked => false
      | .arrived after =>
        (!afterExpression && after.head? ≠ some ',' && after.head? ≠ some '=') ||
          impliesAt fuel (impliesSemicolon afterExpression fuel) after
      | .sameLine after => impliesAt fuel (impliesSemicolon afterExpression fuel) after
    else impliesAt fuel (impliesSemicolon afterExpression fuel) (letter :: rest)

end ImportMeter.Script
