/-
This file finds the root of a workspace and lists its members: the directories with a manifest that
the patterns of the root find. A pattern behind an exclamation mark takes members away.
-/
import ImportMeter.Glob.Expand
import ImportMeter.Log
import ImportMeter.Package.Search

namespace ImportMeter.Workspace

/-- The manifest in a directory, if there is such a file. -/
def manifestIn? (tree : FileTree) (directory : Path) : Option (Except Error Manifest) :=
  if tree.isFile (directory.join ⟨Manifest.fileName⟩) then
    some (Manifest.ofFile tree (directory.join ⟨Manifest.fileName⟩))
  else none

/-- True if the manifest in a directory declares workspaces. -/
def isRoot (tree : FileTree) (directory : Path) : Bool :=
  match manifestIn? tree directory with
  | some (.ok manifest) => manifest.declaresWorkspaces
  | _ => false

/-- A search starts from a directory: an empty path and one with an extension are refused. -/
def isStart (path : Path) : Bool := path.letters ≠ [] && path.extension? = none

/-- The nearest workspace root at or above a path. -/
def findRoot (tree : FileTree) (start : Path) : Except Error (Option Path) :=
  if isStart start then .ok ((tree.searchPath start).find? (isRoot tree))
  else .error (.notDirectoryName start)

/-- What is logged about a directory that the search passes. -/
def passingEvent? (tree : FileTree) (directory : Path) : Option Event :=
  match manifestIn? tree directory with
  | some (.error error) =>
    some (.manifestUnreadable (directory.join ⟨Manifest.fileName⟩) error.message)
  | _ => none

def rootEvents (tree : FileTree) (start : Path) : List Event :=
  if isStart start then
    ((tree.searchPath start).takeWhile fun directory => !isRoot tree directory).filterMap
      (passingEvent? tree)
  else []

/-- What one pattern of a root does to the list of members. -/
inductive Rule where
  | adds (members : List Path)
  | drops (pattern : Glob.Pattern)

def Rule.added : Rule → List Path
  | .adds members => members
  | .drops _ => []

def Rule.keeps (rule : Rule) (member : Path) : Bool :=
  match rule with
  | .adds _ => true
  | .drops pattern => !Glob.matchesText pattern member.letters

/-- The rule that a pattern of a root is. -/
def ruleOf (tree : FileTree) (root : Path) (pattern : Text) : Except Error Rule :=
  match pattern with
  | '!' :: negated =>
    match Glob.read (root.join ⟨negated⟩).letters with
    | .ok compiled => .ok (.drops compiled)
    | .error fault => .error (.badPattern negated fault)
  | _ =>
    match Glob.expand tree ((root.join ⟨pattern⟩).join ⟨Manifest.fileName⟩).letters with
    | .ok files => .ok (.adds (files.filterMap Path.parent?))
    | .error fault => .error (.badPattern pattern fault)

/-- The members that the patterns of a root list. -/
def membersOf (tree : FileTree) (root : Path) (patterns : List Text) :
    Except Error (List Path) := do
  let rules ← patterns.mapM (ruleOf tree root)
  .ok ((rules.flatMap Rule.added).filter fun member => rules.all (·.keeps member))

/-- The root of the workspace that a directory lies in. -/
def rootOf (tree : FileTree) (start : Path) : Except Error Path := do
  match ← findRoot tree start with
  | some root => .ok root
  | none => .error (.noWorkspaceRoot start)

/-- The members of the workspace that a directory lies in. -/
def members (tree : FileTree) (start : Path) : Except Error (List Path) := do
  let root ← rootOf tree start
  let manifest ← Manifest.ofFile tree (root.join ⟨Manifest.fileName⟩)
  membersOf tree root manifest.patterns

/-- What is logged while members are listed. -/
def memberEvents (tree : FileTree) (start : Path) : List Event :=
  rootEvents tree start ++
    match rootOf tree start, members tree start with
    | .ok root, .ok members => [.membersListed root members.length]
    | _, _ => []

end ImportMeter.Workspace
