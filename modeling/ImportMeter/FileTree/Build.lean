/-
This file builds trees of files by putting nodes at locations and taking them away.
-/
import ImportMeter.FileTree.Basic
import ImportMeter.Text.Utf8

namespace ImportMeter

/-- The content that bytes are. -/
def Content.ofBytes (bytes : List UInt8) : Content :=
  match Text.ofBytes? bytes with
  | some letters => .text letters
  | none => .binary bytes

namespace Node

/-- Puts a node among sorted entries, in the place of one of the same name. -/
def putEntry (name : Text) (node : Node) : List (Text × Node) → List (Text × Node)
  | [] => [(name, node)]
  | head :: rest =>
    if name = head.1 then (name, node) :: rest
    else if name < head.1 then (name, node) :: head :: rest
    else head :: putEntry name node rest

def isDirectory : Node → Bool
  | .directory _ => true
  | _ => false

/-- The tree below a node with another node put at a location. Directories on the way are made. -/
def put (new : Node) : Location → Node → Node
  | [], _ => new
  | name :: rest, .directory entries =>
    .directory (putEntry name (put new rest ((child? name entries).getD (.directory []))) entries)
  | _ :: _, other => other

/-- The tree below a node without what stands at a location. -/
def remove : Location → Node → Node
  | [], node => node
  | [name], .directory entries => .directory (entries.filter fun entry => entry.1 ≠ name)
  | name :: rest, .directory entries =>
    .directory (entries.map fun entry =>
      if entry.1 = name then (name, remove rest entry.2) else entry)
  | _ :: _, other => other

mutual

/-- The locations of all files below a node that stands at a location. -/
def files (location : Location) : Node → List Location
  | .file => [location]
  | .directory entries => filesOf location entries
  | .link _ => []

def filesOf (location : Location) : List (Text × Node) → List Location
  | [] => []
  | (name, node) :: rest => files (location ++ [name]) node ++ filesOf location rest

end

end Node

namespace FileTree

def empty : FileTree := ⟨.directory [], fun _ => ⟨.text [], true, true⟩, ⟨['/']⟩⟩

/-- The location that an absolute path spells, dots and links apart. -/
def locationOf (path : Path) : Location :=
  path.components.filterMap fun
    | .normal name => some name
    | _ => none

/-- Makes a directory and those above it. -/
def putDirectory (tree : FileTree) (location : Location) : FileTree :=
  match tree.root.at? location with
  | some (.directory _) => tree
  | _ => { tree with root := Node.put (.directory []) location tree.root }

/-- Makes a file and the directories above it. -/
def putFile (tree : FileTree) (location : Location) (new : File) : FileTree :=
  { tree with
    root := Node.put .file location tree.root
    file := fun other => if other = location then new else tree.file other }

/-- Makes a link and the directories above it. -/
def putLink (tree : FileTree) (location : Location) (target : Path) : FileTree :=
  { tree with root := Node.put (.link target) location tree.root }

/-- Takes away what stands at a location. -/
def remove (tree : FileTree) (location : Location) : FileTree :=
  { tree with root := Node.remove location tree.root }

/-- The locations of all files. -/
def files (tree : FileTree) : List Location := Node.files [] tree.root

end FileTree

end ImportMeter
