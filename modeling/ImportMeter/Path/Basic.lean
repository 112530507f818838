/-
This file defines paths and reads them by their components. A path is kept as it is written; dots
and doubled slashes matter only to how it is read.
-/
import ImportMeter.Text.Basic

namespace ImportMeter

structure Path where
  letters : Text
  deriving DecidableEq

namespace Path

def ofString (text : String) : Path := ⟨text.toList⟩

def toString (path : Path) : String := String.ofList path.letters

instance : ToString Path := ⟨toString⟩

inductive Component where
  | root
  | current
  | parent
  | normal (name : Text)
  deriving DecidableEq

def Component.letters : Component → Text
  | .root => ['/']
  | .current => ['.']
  | .parent => ['.', '.']
  | .normal name => name

def isAbsolute (path : Path) : Bool := path.letters.head? = some '/'

/-- What one piece between slashes means behind the first place: a lone dot means nothing. -/
def componentOf? (piece : Text) : Option Component :=
  if piece = [] || piece = ['.'] then none
  else if piece = ['.', '.'] then some .parent
  else some (.normal piece)

/-- The components of a path. A dot counts only where it begins a relative path. -/
def components (path : Path) : List Component :=
  match path.letters.splitOn '/' with
  | [] => []
  | first :: rest =>
    let front :=
      if path.isAbsolute then [.root]
      else if first = ['.'] then [.current]
      else (componentOf? first).toList
    front ++ rest.filterMap componentOf?

/-- Another path seen from this one, which stands for a directory. -/
def join (base path : Path) : Path :=
  if path.isAbsolute then path
  else if base.letters = [] || base.letters.getLast? = some '/' then
    ⟨base.letters ++ path.letters⟩
  else ⟨base.letters ++ '/' :: path.letters⟩

/-- Drops pieces that are no components from the end, the last piece first. The piece that begins a
relative path counts unless it is empty. -/
def trimPieces (absolute : Bool) : List Text → List Text
  | [] => []
  | [first] => if absolute || first ≠ [] then [first] else []
  | piece :: rest =>
    if (componentOf? piece).isSome then piece :: rest else trimPieces absolute rest

/-- The path without its last component, or `none` for a root and for the empty path. -/
def parent? (path : Path) : Option Path :=
  match trimPieces path.isAbsolute (path.letters.splitOn '/').reverse with
  | [] => none
  | [_] => if path.isAbsolute then none else some ⟨[]⟩
  | _ :: rest =>
    match trimPieces path.isAbsolute rest with
    | [[]] => some ⟨['/']⟩
    | kept => some ⟨Text.joinWith ['/'] kept.reverse⟩

/-- The last component, if it is a name. -/
def fileName? (path : Path) : Option Text :=
  match path.components.getLast? with
  | some (.normal name) => some name
  | _ => none

/-- What follows the last dot of a name, unless that dot begins it. -/
def extensionOf? (name : Text) : Option Text :=
  match (name.splitOn '.').reverse with
  | [] | [_] | [_, []] => none
  | last :: _ => some last

def extension? (path : Path) : Option Text :=
  path.fileName?.bind extensionOf?

/-- The path and all its parents, at most `fuel` of them. -/
def upwards : Nat → Path → List Path
  | 0, _ => []
  | fuel + 1, path =>
    path :: match path.parent? with
      | some parent => upwards fuel parent
      | none => []

/-- The path and all its parents, the nearest first. -/
def ancestors (path : Path) : List Path := upwards (path.letters.length + 2) path

/-- What follows the last slash, slashes at the end apart. -/
def lastSegment (path : Path) : Text :=
  ((path.letters.reverse.dropWhile (· = '/')).takeWhile (· ≠ '/')).reverse

end Path

end ImportMeter
