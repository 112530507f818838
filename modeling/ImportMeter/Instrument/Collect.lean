/-
This file collects the files that a run changes. Files that are named are taken as they are;
directories are walked in the order of the names, and links inside of them are passed over.
-/
import ImportMeter.Error

namespace ImportMeter

/-- What is collected from directories. -/
structure Selection where
  /-- The extensions of the files that are taken, without a dot. -/
  extensions : List Text
  /-- Glob patterns of the files and directories that are passed over. -/
  ignored : List Text

namespace Selection

/-- What is selected where nothing is configured. -/
def default : Selection where
  extensions := ["js".toList, "mjs".toList, "cjs".toList, "jsx".toList]
  ignored := ["**/node_modules/**".toList]

/-- The texts of which one has to match for an entry to be passed over: its path, the path as that of
a directory, a path inside of it, and its name. -/
def aspects (path : Path) : List Text :=
  [path.letters, path.letters ++ ['/'], path.letters ++ ['/', 'x'], path.fileName?.getD []]

def isIgnored (patterns : List Glob.Pattern) (path : Path) : Bool :=
  patterns.any fun pattern => (aspects path).any (Glob.matchesText pattern)

/-- True if two texts are the same up to the case of ASCII letters. -/
def sameLetters (first second : Text) : Bool :=
  first.map Char.toLower = second.map Char.toLower

/-- True for a file with one of the extensions. -/
def isSelected (extensions : List Text) (path : Path) : Bool :=
  match path.extension? with
  | some extension => extensions.any (sameLetters extension)
  | none => false

mutual

/-- The files to take at and below a node with a path. -/
def walk (patterns : List Glob.Pattern) (extensions : List Text) (path : Path) : Node → List Path
  | .file => if isSelected extensions path then [path] else []
  | .directory entries => walkEntries patterns extensions path entries
  | .link _ => []

def walkEntries (patterns : List Glob.Pattern) (extensions : List Text) (directory : Path) :
    List (Text × Node) → List Path
  | [] => []
  | (name, node) :: rest =>
    (if isIgnored patterns (directory.join ⟨name⟩) then []
      else walk patterns extensions (directory.join ⟨name⟩) node) ++
      walkEntries patterns extensions directory rest

end

/-- Compiles the patterns of what is passed over. -/
def compile (ignored : List Text) : Except Error (List Glob.Pattern) :=
  ignored.mapM fun text =>
    match Glob.read text with
    | .ok pattern => .ok pattern
    | .error fault => .error (.badPattern text fault)

/-- The files that one of the listed paths stands for. -/
def collectOne (tree : FileTree) (patterns : List Glob.Pattern) (extensions : List Text)
    (path : Path) : Except Error (List Path) :=
  match tree.node path with
  | .error fault => .error (.unusable path fault)
  | .ok (.directory entries) => .ok (walkEntries patterns extensions path entries)
  | .ok _ => .ok [path]

/-- The files that a list of paths stands for. -/
def collect (selection : Selection) (tree : FileTree) (paths : List Path) :
    Except Error (List Path) := do
  let patterns ← compile selection.ignored
  let files ← paths.mapM (collectOne tree patterns selection.extensions)
  .ok files.flatten

end Selection

end ImportMeter
