/-
This file reads glob patterns and matches texts against them. A star stands for any run of letters,
slashes among them; two stars stand for any directories and have to fill a piece of the pattern.
-/
import ImportMeter.Text.Basic

namespace ImportMeter.Glob

/-- What a bracket lists. -/
inductive Specifier where
  | single (letter : Char)
  | range (first last : Char)
  deriving DecidableEq

def Specifier.accepts (specifier : Specifier) (letter : Char) : Bool :=
  match specifier with
  | .single only => letter = only
  | .range first last => first ≤ letter && letter ≤ last

inductive Token where
  | letter (letter : Char)
  | anyLetter
  | anyRun
  | anyDirectories
  | oneOf (specifiers : List Specifier)
  | noneOf (specifiers : List Specifier)
  deriving DecidableEq

abbrev Pattern := List Token

/-- Why a text is no pattern. -/
inductive Reason where
  | badRange
  | badStars
  | brokenDirectories
  deriving DecidableEq

def Reason.message : Reason → Text
  | .badRange => "invalid range pattern".toList
  | .badStars => "wildcards are either regular \x60*\x60 or recursive \x60**\x60".toList
  | .brokenDirectories => "recursive wildcards must form a single path component".toList

/-- Where a text stops being a pattern, and why. -/
structure PatternFault where
  position : Nat
  reason : Reason
  deriving DecidableEq

def PatternFault.message (fault : PatternFault) : Text :=
  "Pattern syntax error near position ".toList ++ Nat.toDigits 10 fault.position ++
    ": ".toList ++ fault.reason.message

/-- The specifiers that a text between brackets lists. -/
def specifiersOf : Text → List Specifier
  | first :: '-' :: last :: rest => .range first last :: specifiersOf rest
  | letter :: rest => .single letter :: specifiersOf rest
  | [] => []

/-- Reads a bracket behind its opening: its token and how many letters it takes up. The letter in front
may be a closing bracket. -/
def readBracket? (text : Text) : Option (Token × Nat) :=
  match text with
  | '!' :: first :: rest =>
    let others := rest.takeWhile (· ≠ ']')
    if others.length < rest.length then
      some (.noneOf (specifiersOf (first :: others)), others.length + 3)
    else none
  | first :: rest =>
    let others := rest.takeWhile (· ≠ ']')
    if first ≠ '!' && others.length < rest.length then
      some (.oneOf (specifiersOf (first :: others)), others.length + 2)
    else none
  | [] => none

/-- Adds the token for two stars. Behind another one it adds nothing, except at the very front. -/
def addDirectories (tokens : List Token) : List Token :=
  if tokens.length > 1 && tokens.head? = some .anyDirectories then tokens
  else .anyDirectories :: tokens

/-- Reads a pattern from a position on; the letter in front of it is given, and the tokens read before,
the last one first. -/
def readFrom : Nat → Nat → Option Char → List Token → Text → Except PatternFault Pattern
  | 0, _, _, tokens, _ => .ok tokens.reverse
  | _ + 1, _, _, tokens, [] => .ok tokens.reverse
  | fuel + 1, position, before, tokens, letter :: rest =>
    if letter = '?' then readFrom fuel (position + 1) (some '?') (.anyLetter :: tokens) rest
    else if letter = '*' then
      let stars := (rest.takeWhile (· = '*')).length + 1
      let behind := rest.dropWhile (· = '*')
      if stars = 1 then readFrom fuel (position + 1) (some '*') (.anyRun :: tokens) behind
      else if stars > 2 then .error ⟨position + 2, .badStars⟩
      else if before ≠ none && before ≠ some '/' then .error ⟨position - 1, .brokenDirectories⟩
      else match behind with
        | [] => .ok (addDirectories tokens).reverse
        | '/' :: behind =>
          readFrom fuel (position + 3) (some '/') (addDirectories tokens) behind
        | _ => .error ⟨position + 2, .brokenDirectories⟩
    else if letter = '[' then
      match readBracket? rest with
      | some (token, length) =>
        readFrom fuel (position + length + 1) (some ']') (token :: tokens) (rest.drop length)
      | none => .error ⟨position, .badRange⟩
    else readFrom fuel (position + 1) (some letter) (.letter letter :: tokens) rest

/-- The pattern that a text spells. -/
def read (text : Text) : Except PatternFault Pattern :=
  readFrom (text.length + 1) 0 none [] text

/-- True if a token stands for a single letter and the letter is one of those. -/
def Token.accepts (token : Token) (letter : Char) : Bool :=
  match token with
  | .letter only => letter = only
  | .anyLetter => true
  | .oneOf specifiers => specifiers.any (·.accepts letter)
  | .noneOf specifiers => !specifiers.any (·.accepts letter)
  | .anyRun | .anyDirectories => false

/-- What is left of a text behind each of its slashes. -/
def behindSlashes : Text → List Text
  | [] => []
  | letter :: rest => if letter = '/' then rest :: behindSlashes rest else behindSlashes rest

/-- All that can be left of a text if a front of it is dropped. -/
def tails : Text → List Text
  | [] => [[]]
  | letter :: rest => (letter :: rest) :: tails rest

/-- True if a pattern stands for a text. Two stars at its end take up all that is left. -/
def matchesText : Pattern → Text → Bool
  | [], text => text.isEmpty
  | .anyRun :: rest, text => (tails text).any (matchesText rest)
  | .anyDirectories :: rest, text =>
    (text :: behindSlashes text).any (matchesText rest) || matchesText rest []
  | token :: rest, text =>
    match text with
    | [] => false
    | letter :: text => token.accepts letter && matchesText rest text

/-- The text of a pattern without wildcards. -/
def literal? : Pattern → Option Text
  | [] => some []
  | .letter letter :: rest => (literal? rest).map (letter :: ·)
  | _ :: _ => none

end ImportMeter.Glob
