/-
This file defines package manifests and reads them from JSON texts. A manifest is an object, or a list
of its first fields in their order.
-/
import ImportMeter.Json.Reader

namespace ImportMeter

/-- The workspace patterns of a manifest: a list, or an object that holds it. -/
inductive Workspaces where
  | listed (patterns : List Text)
  | packages (patterns : List Text)
  deriving DecidableEq

def Workspaces.patterns : Workspaces → List Text
  | .listed patterns | .packages patterns => patterns

/-- The fields of a package manifest that matter here. -/
structure Manifest where
  name : Option Text
  main : Option Text
  workspaces : Option Workspaces
  deriving DecidableEq

namespace Manifest

/-- The name of the file that holds a manifest. -/
def fileName : Text := "package.json".toList

def patterns (manifest : Manifest) : List Text :=
  (manifest.workspaces.map Workspaces.patterns).getD []

/-- True for the manifest of a workspace root. -/
def declaresWorkspaces (manifest : Manifest) : Bool := !manifest.patterns.isEmpty

/-- A package name without its scope: what follows the last slash. -/
def unscopedName (name : Text) : Text := Text.lastPiece name '/'

/-- The fields read so far; the inner `none` stands for null. -/
structure Fields where
  name : Option (Option Text)
  main : Option (Option Text)
  workspaces : Option (Option Workspaces)

def Fields.none : Fields := ⟨.none, .none, .none⟩

/-- The manifest of some fields. A field that is not there counts as null. -/
def ofFields (fields : Fields) : Manifest :=
  ⟨fields.name.join, fields.main.join, fields.workspaces.join⟩

open JsonText

/-- What a value is, for a message. -/
def foundOf : Json → JsonFound
  | .null => .null
  | .boolean value => .boolean value
  | .number value => .number value
  | .text value => .text value
  | .list _ => .list
  | .object _ => .object

/-- What is wrong where a value of another kind stands. A malformed value is that first. -/
def wrongType (wanted : JsonWanted) (text : Text) : JsonFault :=
  match skipBlank text with
  | [] => .valueEnds
  | '[' :: _ => .wrongType .list wanted
  | '\x7b' :: _ => .wrongType .object wanted
  | first :: rest =>
    match readScalar first rest with
    | .ok (value, _) => .wrongType (foundOf value) wanted
    | .error fault => fault

/-- Reads a string or null. -/
def readTextField (text : Text) : Except JsonFault (Option Text × Text) :=
  match skipBlank text with
  | 'n' :: rest => (readWord ['u', 'l', 'l'] rest).map (.none, ·)
  | '\x22' :: rest => (readText rest).map fun (letters, rest) => (some letters, rest)
  | rest => .error (wrongType .text rest)

def textOf? : Json → Option Text
  | .text value => some value
  | _ => .none

/-- The form of workspaces that a value has. Only one member of an object may hold the patterns. -/
def workspacesOf? : Json → Option Workspaces
  | .list items => (items.mapM textOf?).map .listed
  | .object members =>
    match members.filter fun member => member.1 = "packages".toList with
    | [] => some (.packages [])
    | [(_, .list items)] => (items.mapM textOf?).map .packages
    | _ => .none
  | _ => .none

/-- Reads one of the forms of workspaces or null. -/
def readWorkspaces (depth : Nat) (text : Text) : Except JsonFault (Option Workspaces × Text) :=
  match skipBlank text with
  | 'n' :: rest => (readWord ['u', 'l', 'l'] rest).map (.none, ·)
  | rest => do
    let (value, rest) ← readValue (fuelFor rest) depth rest
    match workspacesOf? value with
    | some workspaces => .ok (some workspaces, rest)
    | .none => .error .noWorkspaceForm

/-- Reads the value of a field, from the colon on. -/
def readField (depth : Nat) (fields : Fields) (name text : Text) :
    Except JsonFault (Fields × Text) :=
  if name = "name".toList then
    if fields.name.isSome then .error (.repeatedField name)
    else do
      let (value, rest) ← readTextField (← readColon text)
      .ok ({ fields with name := some value }, rest)
  else if name = "main".toList then
    if fields.main.isSome then .error (.repeatedField name)
    else do
      let (value, rest) ← readTextField (← readColon text)
      .ok ({ fields with main := some value }, rest)
  else if name = "workspaces".toList then
    if fields.workspaces.isSome then .error (.repeatedField name)
    else do
      let (value, rest) ← readWorkspaces depth (← readColon text)
      .ok ({ fields with workspaces := some value }, rest)
  else do
    let rest ← skipValue (fuelFor text) (← readColon text)
    .ok (fields, rest)

/-- Reads the fields of an object up to its end. -/
def readFields (depth : Nat) : Nat → Bool → Fields → Text → Except JsonFault (Fields × Text)
  | 0, _, _, _ => .error .tooDeep
  | fuel + 1, isFirst, fields, text =>
    match nextMember isFirst text with
    | .error fault => .error fault
    | .ok (.finished rest) => .ok (fields, rest)
    | .ok (.item rest) =>
      match readText rest with
      | .error fault => .error fault
      | .ok (name, rest) =>
        match readField depth fields name rest with
        | .error fault => .error fault
        | .ok (fields, rest) => readFields depth fuel false fields rest

/-- Reads one more item of a list of fields, if there is one. -/
def readPosition {α : Type} (read : Text → Except JsonFault (α × Text)) (isFirst : Bool)
    (text : Text) : Except JsonFault (Option α × Text) := do
  match ← nextItem isFirst text with
  | .finished _ => .ok (.none, text)
  | .item rest =>
    let (value, rest) ← read rest
    .ok (some value, rest)

/-- Passes over the end of a list of fields. -/
def readListEnd (text : Text) : Except JsonFault Text :=
  match skipBlank text with
  | [] => .error .listEnds
  | ']' :: rest => .ok rest
  | ',' :: rest =>
    match skipBlank rest with
    | ']' :: _ => .error .trailingComma
    | _ => .error .trailingCharacters
  | _ => .error .trailingCharacters

/-- Reads the fields of a list, which come in the order of the structure. -/
def readPositions (depth : Nat) (text : Text) : Except JsonFault (Fields × Text) := do
  let (name, rest) ← readPosition readTextField true text
  let (main, rest) ← readPosition readTextField (name.isNone) rest
  let (workspaces, rest) ← readPosition (readWorkspaces depth) (main.isNone) rest
  let rest ← readListEnd rest
  .ok (⟨name, main, workspaces⟩, rest)

/-- Reads a manifest from the front of a text. -/
def readFront (text : Text) : Except JsonFault (Fields × Text) :=
  match skipBlank text with
  | [] => .error .valueEnds
  | '[' :: rest => do readPositions (← deeper depthBound) rest
  | '\x7b' :: rest => do readFields (← deeper depthBound) (fuelFor rest) true .none rest
  | rest => .error (wrongType .manifest rest)

/-- The manifest that a JSON text spells. -/
def read (text : Text) : Except JsonFault Manifest := do
  let (fields, rest) ← readFront text
  readEnd rest
  .ok (ofFields fields)

end Manifest

end ImportMeter
