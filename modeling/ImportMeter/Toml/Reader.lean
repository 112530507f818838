/-
This file reads TOML texts. A text that is malformed spells nothing.
-/
import ImportMeter.Toml.Lexeme

namespace ImportMeter.TomlText

/-- How deep lists and inline tables may be nested, one level less than this. -/
def depthBound : Nat := 80

mutual

/-- Reads a value that lies in so many lists and tables less than may be nested. -/
def readValue? : Nat → Nat → Text → Option (Toml × Text)
  | 0, _, _ => none
  | fuel + 1, depth, text =>
    match text with
    | '[' :: rest =>
      if depth ≤ 1 then none
      else readItems? fuel (depth - 1) [] rest
    | '\x7b' :: rest =>
      if depth ≤ 1 then none
      else match skipBlank rest with
        | '\x7d' :: rest => some (.table .inline [], rest)
        | rest => readMembers? fuel (depth - 1) [] rest
    | first :: _ =>
      if first = '\x22' || first = '\x27' then
        (readText? text).map fun (letters, rest) => (.text letters, rest)
      else (skipPlain? text).map (.plain, ·)
    | [] => none

/-- Reads the items of a list up to its end, some having been read, the last one first. A comma may
stand behind the last item. -/
def readItems? : Nat → Nat → List Toml → Text → Option (Toml × Text)
  | 0, _, _, _ => none
  | fuel + 1, depth, items, text =>
    match skipFiller text.length text with
    | ']' :: rest => some (.list items.reverse, rest)
    | rest =>
      match readValue? fuel depth rest with
      | none => none
      | some (item, rest) =>
        match skipFiller rest.length rest with
        | ',' :: rest => readItems? fuel depth (item :: items) rest
        | ']' :: rest => some (.list (item :: items).reverse, rest)
        | _ => none

/-- Reads the members of an inline table from one of them on, some having been read. -/
def readMembers? : Nat → Nat → Toml.Members → Text → Option (Toml × Text)
  | 0, _, _, _ => none
  | fuel + 1, depth, members, text =>
    match readKey? keyBound text with
    | some (key, '=' :: rest) =>
      match readValue? fuel depth (skipBlank rest) with
      | none => none
      | some (value, rest) =>
        match Toml.putDotted value key members with
        | none => none
        | some members =>
          match skipBlank rest with
          | ',' :: rest => readMembers? fuel depth members rest
          | '\x7d' :: rest => some (.table .inline members, rest)
          | _ => none
    | _ => none

end

/-- What has been read of a text, and the headers that lead to the table being written. -/
structure Draft where
  root : Toml.Members
  headers : List Text

/-- Changes the table being written. -/
def Draft.change? (draft : Draft) (change : Toml.Members → Option Toml.Members) : Option Draft :=
  (Toml.underHeader change draft.headers draft.root).map fun root => { draft with root := root }

/-- Goes on to the table of a header. -/
def Draft.open? (draft : Draft) (headers : List Text)
    (add : Text → Toml.Members → Option Toml.Members) : Option Draft := do
  let key ← headers.getLast?
  let root ← Toml.underHeader (add key) headers.dropLast draft.root
  some ⟨root, headers⟩

/-- Reads a header behind its first bracket. -/
def readHeader? (draft : Draft) (text : Text) : Option (Draft × Text) :=
  match text with
  | '[' :: text => do
    match ← readKey? keyBound text with
    | (key, ']' :: ']' :: rest) => some (← draft.open? key Toml.appendTable, ← finishLine? rest)
    | _ => none
  | text => do
    match ← readKey? keyBound text with
    | (key, ']' :: rest) => some (← draft.open? key Toml.defineTable, ← finishLine? rest)
    | _ => none

/-- Reads a key with its value. -/
def readMember? (draft : Draft) (text : Text) : Option (Draft × Text) := do
  match ← readKey? keyBound text with
  | (key, '=' :: rest) =>
    let (value, rest) ← readValue? (2 * rest.length + 2) depthBound (skipBlank rest)
    some (← draft.change? (Toml.putDotted value key), ← finishLine? rest)
  | _ => none

/-- Reads a text statement by statement, at most `fuel` of them. -/
def readStatements? : Nat → Draft → Text → Option Toml.Members
  | 0, _, _ => none
  | fuel + 1, draft, text =>
    match skipBlank text with
    | [] => some draft.root
    | '#' :: rest => do readStatements? fuel draft (← finishLine? ('#' :: rest))
    | '[' :: rest => do
      let (draft, rest) ← readHeader? draft rest
      readStatements? fuel draft rest
    | rest =>
      match lineBreak? rest with
      | some rest => readStatements? fuel draft rest
      | none => do
        let (draft, rest) ← readMember? draft rest
        readStatements? fuel draft rest

/-- Passes over a byte order mark, if there is one. -/
def skipMark : Text → Text
  | '\ufeff' :: rest => rest
  | text => text

end ImportMeter.TomlText

namespace ImportMeter.Toml

/-- The members of the table that a TOML text spells. -/
def read? (text : Text) : Option Members :=
  TomlText.readStatements? (text.length + 2) ⟨[], []⟩ (TomlText.skipMark text)

end ImportMeter.Toml
