/-
This file walks syntax trees. A place is a tree together with all that lies around it in a larger
tree, so it knows where in the source it starts and what it is part of.
-/
import ImportMeter.Script.Tree

namespace ImportMeter.Script

/-- One node above a place: its part, its kind and its other children, those on the left nearest
first. -/
structure Frame where
  role : Option Role
  kind : Kind
  left : List Tree
  right : List Tree

structure Place where
  focus : Tree
  above : List Frame
  /-- How many characters of the source stand before the tree. -/
  start : Nat

/-- A part of the source, given by the positions where it starts and ends. -/
structure Range where
  start : Nat
  stop : Nat
  deriving DecidableEq

namespace Range

/-- True if the other range lies within this one. -/
def contains (outer inner : Range) : Bool :=
  outer.start ≤ inner.start && inner.stop ≤ outer.stop

/-- The text in a range of the source. -/
def textIn (range : Range) (source : Text) : Text :=
  source.slice range.start range.stop

end Range

namespace Place

def top (tree : Tree) : Place := ⟨tree, [], 0⟩

def kind (place : Place) : Kind := place.focus.kind

def text (place : Place) : Text := place.focus.text

def stop (place : Place) : Nat := place.start + place.focus.width

def range (place : Place) : Range := ⟨place.start, place.stop⟩

def firstChild? (place : Place) : Option Place :=
  match place.focus with
  | .node role kind (first :: others) =>
    some ⟨first, ⟨role, kind, [], others⟩ :: place.above, place.start⟩
  | _ => none

def nextSibling? (place : Place) : Option Place :=
  match place.above with
  | ⟨role, kind, left, next :: right⟩ :: above =>
    some ⟨next, ⟨role, kind, place.focus :: left, right⟩ :: above, place.stop⟩
  | _ => none

def parent? (place : Place) : Option Place :=
  match place.above with
  | ⟨role, kind, left, right⟩ :: above =>
    some ⟨.node role kind (left.reverse ++ place.focus :: right), above,
      place.start - Tree.width.widthOfAll left⟩
  | [] => none

/-- The place and its siblings to the right, at most `fuel` of them. -/
def andSiblings : Nat → Place → List Place
  | 0, _ => []
  | fuel + 1, place =>
    place :: match place.nextSibling? with
      | some next => andSiblings fuel next
      | none => []

def children (place : Place) : List Place :=
  match place.firstChild? with
  | some first => andSiblings place.focus.children.length first
  | none => []

/-- The children other than punctuation, keywords and white space. -/
def namedChildren (place : Place) : List Place :=
  place.children.filter (·.kind.isNamed)

def child? (place : Place) (role : Role) : Option Place :=
  place.children.find? (fun child => child.focus.role? = some role)

/-- Goes on from a place all of whose inside has been walked: up until there is a sibling to the right.
Gives the places left on the way up and that sibling. -/
def climbFrom : Nat → Place → List Place × Option Place
  | 0, _ => ([], none)
  | fuel + 1, place =>
    match place.nextSibling? with
    | some next => ([], some next)
    | none =>
      match place.parent? with
      | some parent =>
        let (left, next) := climbFrom fuel parent
        (parent :: left, next)
      | none => ([], none)

def climb (place : Place) : List Place × Option Place :=
  climbFrom (place.above.length + 1) place

/-- Walks on from a place that has not been visited: parents come before their children. -/
def preorderFrom : Nat → Place → List Place
  | 0, _ => []
  | fuel + 1, place =>
    place :: match place.firstChild? with
      | some child => preorderFrom fuel child
      | none =>
        match place.climb.2 with
        | some next => preorderFrom fuel next
        | none => []

/-- Walks on from a place that has not been visited: children come before their parents. -/
def postorderFrom : Nat → Place → List Place
  | 0, _ => []
  | fuel + 1, place =>
    match place.firstChild? with
    | some child => postorderFrom fuel child
    | none =>
      let (left, next) := place.climb
      place :: left ++ match next with
        | some next => postorderFrom fuel next
        | none => []

/-- All places in a tree, parents before children. -/
def preorder (tree : Tree) : List Place :=
  preorderFrom tree.size (top tree)

/-- All places in a tree, children before parents. -/
def postorder (tree : Tree) : List Place :=
  postorderFrom tree.size (top tree)

end Place

end ImportMeter.Script
