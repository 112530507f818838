/-
This file defines syntax trees that keep every character of the source: a tree's text is the
text of its leaves, so a node's place in the source follows from the widths before it.
-/
import ImportMeter.Script.Kind
import ImportMeter.Text.Basic

namespace ImportMeter.Script

/-- The part a child plays in its parent, where a parent has children that are told apart. -/
inductive Role where
  | callee
  | arguments
  | source
  | name
  | alias
  | declaration
  | value
  deriving DecidableEq

inductive Tree where
  | leaf (role : Option Role) (kind : Kind) (letters : Text)
  | node (role : Option Role) (kind : Kind) (children : List Tree)

namespace Tree

def role? : Tree → Option Role
  | .leaf role _ _ => role
  | .node role _ _ => role

def kind : Tree → Kind
  | .leaf _ kind _ => kind
  | .node _ kind _ => kind

def children : Tree → List Tree
  | .leaf _ _ _ => []
  | .node _ _ children => children

/-- The same tree in another part. -/
def withRole (role : Option Role) : Tree → Tree
  | .leaf _ kind letters => .leaf role kind letters
  | .node _ kind children => .node role kind children

def isTrivia (tree : Tree) : Bool :=
  tree.kind.isTrivia

/-- The source text of a tree. -/
def text : Tree → Text
  | .leaf _ _ letters => letters
  | .node _ _ children => textOfAll children
where
  textOfAll : List Tree → Text
    | [] => []
    | tree :: rest => tree.text ++ textOfAll rest

/-- The source text of neighbouring trees. -/
def textOfAll (trees : List Tree) : Text :=
  text.textOfAll trees

/-- The number of characters in a tree's text. -/
def width : Tree → Nat
  | .leaf _ _ letters => letters.length
  | .node _ _ children => widthOfAll children
where
  widthOfAll : List Tree → Nat
    | [] => 0
    | tree :: rest => tree.width + widthOfAll rest

/-- The number of nodes and leaves in a tree. -/
def size : Tree → Nat
  | .leaf _ _ _ => 1
  | .node _ _ children => sizeOfAll children + 1
where
  sizeOfAll : List Tree → Nat
    | [] => 0
    | tree :: rest => tree.size + sizeOfAll rest

/-- Gives the last of some neighbouring trees a part. -/
def markLast (role : Role) : List Tree → List Tree
  | [] => []
  | [tree] => [tree.withRole role]
  | tree :: rest => tree :: markLast role rest

/-- Puts neighbouring trees under one node; what may stand between tokens stays in front of it. -/
def gather (kind : Kind) (trees : List Tree) : List Tree :=
  trees.takeWhile isTrivia ++ [.node none kind (trees.dropWhile isTrivia)]

/-- The child that plays a part. -/
def child? (tree : Tree) (role : Role) : Option Tree :=
  tree.children.find? (fun child => child.role? = some role)

end Tree

end ImportMeter.Script
