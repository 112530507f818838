/-
This file lists what a glob pattern finds in a tree of files. The pattern is matched piece by piece
between its slashes, and what one piece finds is listed in the order of the names.
-/
import ImportMeter.FileTree.Basic
import ImportMeter.Glob.Pattern

namespace ImportMeter.Glob

/-- True for the pattern of a piece that stands for any directories. -/
def isRecursive (pattern : Pattern) : Bool := pattern = [.anyDirectories]

/-- Drops pieces that stand for any directories, as long as another one follows. -/
def collapse : List Pattern → List Pattern
  | first :: second :: rest =>
    if isRecursive first && isRecursive second then collapse (second :: rest)
    else first :: second :: rest
  | patterns => patterns

mutual

/-- What the pieces find inside of a path. A piece without wildcards is looked up, for others the
directory is listed. -/
def within (tree : FileTree) : Nat → List Pattern → Path → List Path
  | 0, _, _ => []
  | _, [], _ => []
  | fuel + 1, pattern :: rest, path =>
    match literal? pattern with
    | some name =>
      let next := path.join ⟨name⟩
      let found :=
        if name = ['.'] || name = ['.', '.'] then tree.isDirectory path
        else tree.existsUnfollowed next
      if found then arrive tree fuel rest next else []
    | none =>
      match tree.entries? path with
      | none => []
      | some entries =>
        let dots := if pattern.head? = some (.letter '.') then [['.', '.'], ['.']] else []
        (dots.filter (matchesText pattern)).flatMap (fun name =>
          arrive tree fuel rest (path.join ⟨name⟩)) ++
        entries.flatMap fun entry => visit tree fuel (pattern :: rest) (path.join ⟨entry.1⟩)

/-- What is found from a path that the pieces before led to. -/
def arrive (tree : FileTree) : Nat → List Pattern → Path → List Path
  | 0, _, _ => []
  | _, [], path => [path]
  | fuel + 1, patterns, path => within tree fuel patterns path

/-- What is found from an entry of a directory, the first piece being still to be matched with its
name. -/
def visit (tree : FileTree) : Nat → List Pattern → Path → List Path
  | 0, _, _ => []
  | fuel + 1, patterns, path =>
    match collapse patterns with
    | [] => []
    | pattern :: rest =>
      if isRecursive pattern then
        if tree.isDirectory path then
          (if rest.isEmpty then [path] else matchName tree fuel rest path) ++
            within tree fuel (pattern :: rest) path
        else matchName tree fuel rest path
      else matchName tree fuel (pattern :: rest) path

/-- What is found from an entry of a directory whose name has to match the first piece. -/
def matchName (tree : FileTree) : Nat → List Pattern → Path → List Path
  | 0, _, _ => []
  | _, [], _ => []
  | fuel + 1, pattern :: rest, path =>
    match path.fileName? with
    | none => []
    | some name =>
      if matchesText pattern name then
        if rest.isEmpty then [path] else within tree fuel rest path
      else []

end

/-- Enough fuel to expand some pieces: links can make paths longer than the tree is deep. -/
def fuelFor (tree : FileTree) (patterns : List Pattern) : Nat :=
  4 * (patterns.length + (FileTree.linkLimit + 2) * (tree.root.depth + 1))

/-- The pieces of a text between slashes. A slash at the end has no piece behind it. -/
def piecesOf (text : Text) : List Text :=
  match (text.splitOn '/').reverse with
  | [] :: rest => rest.reverse
  | pieces => pieces.reverse

/-- What an absolute pattern finds. -/
def expand (tree : FileTree) (pattern : Text) : Except PatternFault (List Path) := do
  let _ ← read pattern
  let patterns ← (piecesOf (pattern.drop 1)).mapM read
  .ok (within tree (fuelFor tree patterns) patterns ⟨['/']⟩)

end ImportMeter.Glob
