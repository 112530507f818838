/-
This file defines trees of files. What a tree is made of is kept apart from what its files hold, so
that writing into a file changes no directory and no link.
-/
import ImportMeter.Path.Basic

namespace ImportMeter

/-- What can stand under a name. The entries of a directory are sorted by name. -/
inductive Node where
  | file
  | directory (entries : List (Text × Node))
  | link (target : Path)

/-- The names that lead from the root of a tree to a place in it. -/
abbrev Location := List Text

/-- What a file holds: a text, or bytes that are not UTF-8. -/
inductive Content where
  | text (text : Text)
  | binary (bytes : List UInt8)
  deriving DecidableEq

structure File where
  content : Content
  readable : Bool
  writable : Bool
  deriving DecidableEq

/-- A tree of files as seen from a working directory. -/
structure FileTree where
  root : Node
  file : Location → File
  /-- The absolute path of the working directory, free of links. -/
  workingDirectory : Path

/-- Why a path cannot be used. -/
inductive FileFault where
  | notFound
  | denied
  | notDirectory
  | isDirectory
  | nameTooLong
  | tooManyLinks
  | zeroInName
  | notText
  deriving DecidableEq

def FileFault.message : FileFault → Text
  | .notFound => "No such file or directory (os error 2)".toList
  | .denied => "Permission denied (os error 13)".toList
  | .notDirectory => "Not a directory (os error 20)".toList
  | .isDirectory => "Is a directory (os error 21)".toList
  | .nameTooLong => "File name too long (os error 36)".toList
  | .tooManyLinks => "Too many levels of symbolic links (os error 40)".toList
  | .zeroInName => "file name contained an unexpected NUL byte".toList
  | .notText => "stream did not contain valid UTF-8".toList

namespace Node

/-- The entry of a directory with a name. -/
def child? (name : Text) (entries : List (Text × Node)) : Option Node :=
  (entries.find? fun entry => entry.1 = name).map Prod.snd

/-- The node at a location below this one. Links are not followed. -/
def at? : Node → Location → Option Node
  | node, [] => some node
  | .directory entries, name :: rest => (child? name entries).bind fun node => node.at? rest
  | _, _ :: _ => none

mutual

/-- How many names the longest location below a node has. -/
def depth : Node → Nat
  | .directory entries => depthOf entries + 1
  | _ => 0

def depthOf : List (Text × Node) → Nat
  | [] => 0
  | (_, node) :: rest => max node.depth (depthOf rest)

end

end Node

namespace FileTree

/-- How far a path can be followed without a detour: to its end, or to a link, of which the place it
stands in, its target and the rest of the path are given. -/
inductive Progress where
  | arrived (location : Location)
  | detour (directory : Location) (target : Path) (rest : List Text)

/-- How many bytes a name may have. -/
def nameLimit : Nat := 255

/-- How many bytes a path may have. -/
def pathLimit : Nat := 4095

/-- How many links one path may lead over. -/
def linkLimit : Nat := 40

/-- Follows the pieces of a path from a location. A link at the very end is followed only if that is
asked for. -/
def follow (tree : FileTree) (followsLast : Bool) :
    Location → List Text → Except FileFault Progress
  | location, [] => .ok (.arrived location)
  | location, piece :: rest =>
    match tree.root.at? location with
    | some (.directory entries) =>
      if piece = [] || piece = ['.'] then follow tree followsLast location rest
      else if piece = ['.', '.'] then follow tree followsLast location.dropLast rest
      else if Text.utf8Length piece > nameLimit then .error .nameTooLong
      else match Node.child? piece entries with
        | none => .error .notFound
        | some (.link target) =>
          if rest = [] && !followsLast then .ok (.arrived (location ++ [piece]))
          else .ok (.detour location target rest)
        | some _ => follow tree followsLast (location ++ [piece]) rest
    | _ => .error .notDirectory

/-- Follows the pieces of a path over at most so many links, less one. -/
def resolve (tree : FileTree) (followsLast : Bool) :
    Nat → Location → List Text → Except FileFault Location
  | 0, _, _ => .error .tooManyLinks
  | links + 1, location, pieces =>
    match tree.follow followsLast location pieces with
    | .error fault => .error fault
    | .ok (.arrived location) => .ok location
    | .ok (.detour directory target rest) =>
      if target.letters = [] then .error .notFound
      else resolve tree followsLast links (if target.isAbsolute then [] else directory)
        (target.letters.splitOn '/' ++ rest)

/-- The location that a path leads to. -/
def locate (tree : FileTree) (followsLast : Bool) (path : Path) : Except FileFault Location :=
  if path.letters = [] then .error .notFound
  else if path.letters.any (· = '\x00') then .error .zeroInName
  else if Text.utf8Length path.letters > pathLimit then .error .nameTooLong
  else tree.resolve followsLast (linkLimit + 1) []
    ((tree.workingDirectory.join path).letters.splitOn '/')

/-- What stands at the end of a path. -/
def node (tree : FileTree) (path : Path) : Except FileFault Node := do
  match tree.root.at? (← tree.locate true path) with
  | some node => .ok node
  | none => .error .notFound

def has (tree : FileTree) (path : Path) : Bool := (tree.node path).isOk

/-- True if something stands at the end of a path, be it a link that leads nowhere. -/
def existsUnfollowed (tree : FileTree) (path : Path) : Bool := (tree.locate false path).isOk

def isFile (tree : FileTree) (path : Path) : Bool :=
  match tree.node path with
  | .ok .file => true
  | _ => false

/-- The entries of a directory; nothing if the path leads to no directory. -/
def entries? (tree : FileTree) (path : Path) : Option (List (Text × Node)) :=
  match tree.node path with
  | .ok (.directory entries) => some entries
  | _ => none

def isDirectory (tree : FileTree) (path : Path) : Bool := (tree.entries? path).isSome

/-- The text of the file at a location. -/
def textAt (tree : FileTree) (location : Location) : Except FileFault Text :=
  match tree.root.at? location with
  | some .file =>
    let file := tree.file location
    if !file.readable then .error .denied
    else match file.content with
      | .text text => .ok text
      | .binary _ => .error .notText
  | some (.directory _) => .error .isDirectory
  | _ => .error .notFound

/-- The text of the file that a path leads to. -/
def readText (tree : FileTree) (path : Path) : Except FileFault Text := do
  tree.textAt (← tree.locate true path)

/-- Puts a text into the file at a location. -/
def writeAt (tree : FileTree) (location : Location) (text : Text) : Except FileFault FileTree :=
  match tree.root.at? location with
  | some .file =>
    let file := tree.file location
    if !file.writable then .error .denied
    else .ok { tree with
      file := fun other =>
        if other = location then { file with content := .text text } else tree.file other }
  | some (.directory _) => .error .isDirectory
  | _ => .error .notFound

/-- Puts a text into the file that a path leads to. -/
def writeText (tree : FileTree) (path : Path) (text : Text) : Except FileFault FileTree := do
  tree.writeAt (← tree.locate true path) text

/-- The tree as seen from another working directory. -/
def enter (tree : FileTree) (path : Path) : Except FileFault FileTree := do
  let location ← tree.locate true path
  .ok { tree with workingDirectory := ⟨'/' :: Text.joinWith ['/'] location⟩ }

end FileTree

end ImportMeter
