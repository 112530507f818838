/-
This file fixes how source text is held: as the list of its characters.
-/

namespace ImportMeter

/-- A text is the list of its characters, so that a proof about it is an induction. -/
abbrev Text := List Char

namespace Text

/-- The part of a text from one position up to another. -/
def slice (text : Text) (first last : Nat) : Text :=
  (text.drop first).take (last - first)

/-- The number of bytes a text takes in UTF-8. -/
def utf8Length (text : Text) : Nat :=
  text.foldl (fun count letter => count + letter.utf8Size) 0

/-- What is left after a leading part, if the text begins with it. -/
def dropFront? : Text → Text → Option Text
  | text, [] => some text
  | [], _ :: _ => none
  | letter :: text, head :: front => if letter = head then dropFront? text front else none

def startsWith (text front : Text) : Bool :=
  (text.dropFront? front).isSome

/-- True if the part occurs somewhere in the text. -/
def contains (text part : Text) : Bool :=
  text.startsWith part || match text with
    | [] => false
    | _ :: rest => contains rest part

/-- The pieces of a text between the places where a separator stands. -/
def splitOn (separator : Char) : Text → List Text
  | [] => [[]]
  | letter :: rest =>
    if letter = separator then [] :: splitOn separator rest
    else match splitOn separator rest with
      | [] => [[letter]]
      | piece :: pieces => (letter :: piece) :: pieces

/-- What follows the last separator of a text, or all of it. -/
def lastPiece (text : Text) (separator : Char) : Text :=
  (text.reverse.takeWhile (· ≠ separator)).reverse

/-- Joins texts with a separator between neighbours. -/
def joinWith (separator : Text) : List Text → Text
  | [] => []
  | [last] => last
  | first :: rest => first ++ separator ++ joinWith separator rest

end Text

end ImportMeter
