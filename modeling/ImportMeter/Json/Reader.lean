/-
This file reads JSON texts. Lists and objects may be nested 127 deep.
-/
import ImportMeter.Json.Lexeme

namespace ImportMeter.JsonText

/-- How deep a text may be nested, one level less than this. -/
def depthBound : Nat := 128

/-- The depth left inside one more list or object. -/
def deeper (depth : Nat) : Except JsonFault Nat :=
  if depth ≤ 1 then .error .tooDeep else .ok (depth - 1)

/-- What comes next inside a list or an object: one more item, or what is left behind the end. -/
inductive Ahead where
  | item (rest : Text)
  | finished (rest : Text)

/-- Passes over the comma in front of an item, if it is not the first one. -/
def nextItem (isFirst : Bool) (text : Text) : Except JsonFault Ahead :=
  match skipBlank text with
  | [] => .error .listEnds
  | ']' :: rest => .ok (.finished rest)
  | letter :: rest =>
    if isFirst then .ok (.item (letter :: rest))
    else if letter = ',' then
      match skipBlank rest with
      | [] => .error .valueEnds
      | ']' :: _ => .error .trailingComma
      | rest => .ok (.item rest)
    else .error .noListComma

/-- Passes over the opening quote of a member's name. -/
def openName : Text → Except JsonFault Ahead
  | '\x22' :: rest => .ok (.item rest)
  | _ => .error .nameNotText

/-- Passes over the comma in front of a member, if it is not the first one, and over the opening quote
of its name. -/
def nextMember (isFirst : Bool) (text : Text) : Except JsonFault Ahead :=
  match skipBlank text with
  | [] => .error .objectEnds
  | '\x7d' :: rest => .ok (.finished rest)
  | letter :: rest =>
    if isFirst then openName (letter :: rest)
    else if letter = ',' then
      match skipBlank rest with
      | [] => .error .valueEnds
      | '\x7d' :: _ => .error .trailingComma
      | rest => openName rest
    else .error .noObjectComma

def readColon (text : Text) : Except JsonFault Text :=
  match skipBlank text with
  | [] => .error .objectEnds
  | ':' :: rest => .ok rest
  | _ => .error .noColon

/-- Reads a value that is no list and no object, from its first letter on. -/
def readScalar (first : Char) (rest : Text) : Except JsonFault (Json × Text) :=
  if first = 'n' then (readWord ['u', 'l', 'l'] rest).map (.null, ·)
  else if first = 't' then (readWord ['r', 'u', 'e'] rest).map (.boolean true, ·)
  else if first = 'f' then (readWord ['a', 'l', 's', 'e'] rest).map (.boolean false, ·)
  else if first = '\x22' then (readText rest).map fun (letters, rest) => (.text letters, rest)
  else if first = '-' then (readNumber true rest).map fun (number, rest) => (.number number, rest)
  else if first.isDigit then
    (readNumber false (first :: rest)).map fun (number, rest) => (.number number, rest)
  else .error .noValue

mutual

/-- Reads a value with its members as they stand. -/
def readValue : Nat → Nat → Text → Except JsonFault (Json × Text)
  | 0, _, _ => .error .tooDeep
  | fuel + 1, depth, text =>
    match skipBlank text with
    | [] => .error .valueEnds
    | '[' :: rest => do
      let (items, rest) ← readItems fuel (← deeper depth) [] rest
      .ok (.list items, rest)
    | '\x7b' :: rest => do
      let (members, rest) ← readMembers fuel (← deeper depth) [] rest
      .ok (.object members, rest)
    | first :: rest => readScalar first rest

/-- Reads the items of a list up to its end, some having been read, the last one first. -/
def readItems : Nat → Nat → List Json → Text → Except JsonFault (List Json × Text)
  | 0, _, _, _ => .error .tooDeep
  | fuel + 1, depth, items, text =>
    match nextItem items.isEmpty text with
    | .error fault => .error fault
    | .ok (.finished rest) => .ok (items.reverse, rest)
    | .ok (.item rest) =>
      match readValue fuel depth rest with
      | .error fault => .error fault
      | .ok (item, rest) => readItems fuel depth (item :: items) rest

/-- Reads the members of an object up to its end, some having been read, the last one first. -/
def readMembers : Nat → Nat → List (Text × Json) → Text →
    Except JsonFault (List (Text × Json) × Text)
  | 0, _, _, _ => .error .tooDeep
  | fuel + 1, depth, members, text =>
    match nextMember members.isEmpty text with
    | .error fault => .error fault
    | .ok (.finished rest) => .ok (members.reverse, rest)
    | .ok (.item rest) =>
      match readText rest with
      | .error fault => .error fault
      | .ok (name, rest) =>
        match readColon rest with
        | .error fault => .error fault
        | .ok rest =>
          match readValue fuel depth rest with
          | .error fault => .error fault
          | .ok (value, rest) => readMembers fuel depth ((name, value) :: members) rest

end

/-- Enough fuel for a text: every step takes a letter. -/
def fuelFor (text : Text) : Nat := 2 * text.length + 2

/-- Nothing but blanks may stand behind a value. -/
def readEnd (text : Text) : Except JsonFault Unit :=
  if skipBlank text = [] then .ok () else .error .trailingCharacters

mutual

/-- Passes over a value that nobody wants. Numbers may be out of range there. -/
def skipValue : Nat → Text → Except JsonFault Text
  | 0, _ => .error .tooDeep
  | fuel + 1, text =>
    match skipBlank text with
    | [] => .error .valueEnds
    | '[' :: rest =>
      match skipBlank rest with
      | ']' :: rest => .ok rest
      | [] => .error .listEnds
      | rest => skipItems fuel rest
    | '\x7b' :: rest =>
      match skipBlank rest with
      | '\x7d' :: rest => .ok rest
      | rest => skipMembers fuel rest
    | 'n' :: rest => readWord ['u', 'l', 'l'] rest
    | 't' :: rest => readWord ['r', 'u', 'e'] rest
    | 'f' :: rest => readWord ['a', 'l', 's', 'e'] rest
    | '\x22' :: rest => skipText rest
    | '-' :: rest => skipNumber rest
    | first :: rest => if first.isDigit then skipNumber (first :: rest) else .error .noValue

/-- Passes over the items of a list from one of them on. -/
def skipItems : Nat → Text → Except JsonFault Text
  | 0, _ => .error .tooDeep
  | fuel + 1, text =>
    match skipValue fuel text with
    | .error fault => .error fault
    | .ok rest =>
      match skipBlank rest with
      | [] => .error .listEnds
      | ']' :: rest => .ok rest
      | ',' :: rest => skipItems fuel rest
      | _ => .error .noListComma

/-- Passes over the members of an object from one of them on. -/
def skipMembers : Nat → Text → Except JsonFault Text
  | 0, _ => .error .tooDeep
  | fuel + 1, text =>
    match skipBlank text with
    | [] => .error .objectEnds
    | '\x22' :: rest =>
      match skipText rest with
      | .error fault => .error fault
      | .ok rest =>
        match readColon rest with
        | .error fault => .error fault
        | .ok rest =>
          match skipValue fuel rest with
          | .error fault => .error fault
          | .ok rest =>
            match skipBlank rest with
            | [] => .error .objectEnds
            | '\x7d' :: rest => .ok rest
            | ',' :: rest => skipMembers fuel rest
            | _ => .error .noObjectComma
    | _ => .error .nameNotText

end

end ImportMeter.JsonText

namespace ImportMeter.Json

/-- The value that a JSON text spells, in normal form. -/
def read (text : Text) : Except JsonFault Json := do
  let (value, rest) ← JsonText.readValue (JsonText.fuelFor text) JsonText.depthBound text
  JsonText.readEnd rest
  .ok value.normal

end ImportMeter.Json
