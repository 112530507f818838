/-
This file defines JSON values. Integers that fit into 64 bits are kept exactly, all other numbers as
floating-point numbers.
-/
import ImportMeter.Text.Basic

namespace ImportMeter

inductive JsonNumber where
  | integer (value : Int)
  | float (value : Float)

/-- A JSON value. The members of an object stand in some order, and a name may come twice until the
value is put into normal form. -/
inductive Json where
  | null
  | boolean (value : Bool)
  | number (value : JsonNumber)
  | text (value : Text)
  | list (items : List Json)
  | object (members : List (Text × Json))

namespace Json

/-- Puts a member among members sorted by name, in the place of one of the same name. -/
def insertMember (name : Text) (value : Json) : List (Text × Json) → List (Text × Json)
  | [] => [(name, value)]
  | head :: rest =>
    if name = head.1 then (name, value) :: rest
    else if name < head.1 then (name, value) :: head :: rest
    else head :: insertMember name value rest

/-- Members sorted by name; of members of one name the last is kept. -/
def sortMembers (members : List (Text × Json)) : List (Text × Json) :=
  members.foldl (fun sorted member => insertMember member.1 member.2 sorted) []

/-- An object with some members, in normal form if their values are. -/
def ofMembers (members : List (Text × Json)) : Json := .object (sortMembers members)

mutual

/-- The value with the members of all objects sorted by name and no name twice. -/
def normal : Json → Json
  | .list items => .list (normalItems items)
  | .object members => .object (sortMembers (normalMembers members))
  | value => value

def normalItems : List Json → List Json
  | [] => []
  | item :: rest => item.normal :: normalItems rest

def normalMembers : List (Text × Json) → List (Text × Json)
  | [] => []
  | (name, value) :: rest => (name, value.normal) :: normalMembers rest

end

/-- The member of an object with a name. -/
def member? (value : Json) (name : Text) : Option Json :=
  match value with
  | .object members => (members.find? fun member => member.1 = name).map Prod.snd
  | _ => none

/-- The name under which a module's main export stands. -/
def defaultName : Text := ['d', 'e', 'f', 'a', 'u', 'l', 't']

/-- The value of the main export if a module has no other, else the module itself. -/
def unwrapDefault (module : Json) : Json :=
  match module with
  | .object [(name, value)] => if name = defaultName then value else module
  | _ => module

end Json

end ImportMeter
