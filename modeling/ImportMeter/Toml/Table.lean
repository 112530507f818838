/-
This file defines what TOML texts spell, and the rules for adding to a table. A table is written in
one place only: what a header or an inline table has defined is not defined again.
-/
import ImportMeter.Text.Basic

namespace ImportMeter

/-- How a table came to be. -/
inductive TableKind where
  /-- Defined by a header. -/
  | defined
  /-- Named by the header of a table inside it. -/
  | implied
  /-- Named by a dotted key. -/
  | dotted
  /-- Written between braces. -/
  | inline
  deriving DecidableEq

/-- A TOML value. Numbers, dates and truth values are not told apart. -/
inductive Toml where
  | text (value : Text)
  | plain
  | list (items : List Toml)
  | table (kind : TableKind) (members : List (Text × Toml))
  /-- Tables written under the same header. -/
  | tables (items : List (List (Text × Toml)))

namespace Toml

abbrev Members := List (Text × Toml)

def member? (members : Members) (key : Text) : Option Toml :=
  (members.find? fun member => member.1 = key).map Prod.snd

/-- Puts a value in the place of the one with its key, or at the end. -/
def setMember (key : Text) (value : Toml) : Members → Members
  | [] => [(key, value)]
  | head :: rest =>
    if head.1 = key then (key, value) :: rest else head :: setMember key value rest

/-- Adds a value under a new key. -/
def addNew (key : Text) (value : Toml) (members : Members) : Option Members :=
  if (member? members key).isSome then none else some (members ++ [(key, value)])

/-- Changes the last of some tables. -/
def changeLast (change : Members → Option Members) : List Members → Option (List Members)
  | [] => none
  | [last] => (change last).map fun last => [last]
  | first :: rest => (changeLast change rest).map (first :: ·)

/-- Changes the table that a path of headers leads to. Tables on the way are implied. -/
def underHeader (change : Members → Option Members) : List Text → Members → Option Members
  | [], members => change members
  | key :: path, members =>
    match member? members key with
    | none => do
      let inner ← underHeader change path []
      some (members ++ [(key, .table .implied inner)])
    | some (.table .inline _) => none
    | some (.table kind inner) => do
      let inner ← underHeader change path inner
      some (setMember key (.table kind inner) members)
    | some (.tables items) => do
      let items ← changeLast (underHeader change path) items
      some (setMember key (.tables items) members)
    | some _ => none

/-- Defines the table of a header, which may have been implied before. -/
def defineTable (key : Text) (members : Members) : Option Members :=
  match member? members key with
  | none => some (members ++ [(key, .table .defined [])])
  | some (.table .implied inner) => some (setMember key (.table .defined inner) members)
  | some _ => none

/-- Adds a table to those under one header. -/
def appendTable (key : Text) (members : Members) : Option Members :=
  match member? members key with
  | none => some (members ++ [(key, .tables [[]])])
  | some (.tables items) => some (setMember key (.tables (items ++ [[]])) members)
  | some _ => none

/-- Puts a value under a dotted key. The table that takes the value has to be new or a dotted one;
tables that are implied, or written under one header, may be passed through on the way. -/
def putDotted (value : Toml) : List Text → Members → Option Members
  | [], _ => none
  | [key], members => addNew key value members
  | key :: path, members =>
    match member? members key with
    | none => do
      let inner ← putDotted value path []
      some (members ++ [(key, .table .dotted inner)])
    | some (.table .dotted inner) => do
      let inner ← putDotted value path inner
      some (setMember key (.table .dotted inner) members)
    | some (.table .implied inner) =>
      if path.length < 2 then none
      else do
        let inner ← putDotted value path inner
        some (setMember key (.table .implied inner) members)
    | some (.tables items) =>
      if path.length < 2 then none
      else do
        let items ← changeLast (putDotted value path) items
        some (setMember key (.tables items) members)
    | some _ => none

end Toml

end ImportMeter
