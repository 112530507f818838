/-
This file loads modules: from files, the way packages are laid out on disk, or from a table.
-/
import ImportMeter.Package.Search
import ImportMeter.Script.Export
import ImportMeter.Script.Grammar
import ImportMeter.Specifier

namespace ImportMeter

/-- Something that gives the module of a target. It may keep a state of its own. -/
abbrev Loader (σ : Type) := Text → σ → Except Error Json × σ

namespace Loader

/-- The file a directory starts with, unless its manifest names another. -/
def defaultMain : Path := .ofString "index.js"

/-- The name of a directory of installed packages. -/
def packagesName : Path := .ofString "node_modules"

/-- The installed package or file of a bare specifier, searched for upward from a directory. -/
def findInstalled? (tree : FileTree) (base : Path) (specifier : Text) : Option Path :=
  (base.ancestors.map fun directory => (directory.join packagesName).join ⟨specifier⟩).find?
    tree.has

/-- The path that a target leads to, which may be that of a directory. -/
def candidate (tree : FileTree) (base : Path) (target : Text) : Except Error Path :=
  if Text.startsWith target Specifier.fileScheme then
    match Specifier.locationPath? target with
    | some path => .ok path
    | none => .error (.notLoaded target .locationUnsupported)
  else if target.head? = some '/' || target.head? = some '.' then
    .ok (base.join ⟨target⟩).normalize
  else match findInstalled? tree base target with
    | some path => .ok path
    | none => .error (.notLoaded target .packageNotInstalled)

/-- The file that the manifest of a directory names to start with, if it names one. -/
def mainOf (tree : FileTree) (directory : Path) : Except Error (Option Text) :=
  if tree.isFile (directory.join ⟨Manifest.fileName⟩) then
    (Manifest.ofFile tree (directory.join ⟨Manifest.fileName⟩)).map Manifest.main
  else .ok none

/-- The file to read for a path: a directory stands for the file it starts with. -/
def entryFile (tree : FileTree) (target : Text) (path : Path) : Except Error Path :=
  if tree.isFile path then .ok path
  else if !tree.isDirectory path then .error (.notLoaded target (.pathMissing path))
  else do
    let main ← mainOf tree path
    let entry := (path.join ((main.map Path.mk).getD defaultMain)).normalize
    let entry := if tree.isDirectory entry then entry.join defaultMain else entry
    if tree.isFile entry then .ok entry
    else .error (.notLoaded target (.entryMissing entry))

/-- The file that a target is loaded from. -/
def locate (tree : FileTree) (base : Path) (target : Text) : Except Error Path := do
  entryFile tree target (← candidate tree base target)

/-- A module with the exports of a script, each with its text. -/
def moduleOf (tree : Script.Tree) : Json :=
  .ofMembers ((Script.exportsOf tree).map fun found => (found.name, .text found.body))

/-- The module in a file: JSON becomes the main export, all else is read as a script. -/
def moduleIn (tree : FileTree) (file : Path) : Except Error Json :=
  match tree.readText file with
  | .error fault => .error (.unusable file fault)
  | .ok text =>
    if file.extension? = some "json".toList then
      match Json.read text with
      | .ok value => .ok (.object [(Json.defaultName, value)])
      | .error fault => .error (.notJson file fault)
    else match Script.parse? text with
      | some script => .ok (moduleOf script)
      | none => .error (.notScript file)

/-- The module of a target as files give it. -/
def load (tree : FileTree) (base : Path) (target : Text) : Except Error Json := do
  moduleIn tree (← locate tree base target)

/-- Loads from files; bare specifiers are searched for upward from a directory. -/
def ofFiles {σ : Type} (tree : FileTree) (base : Path) : Loader σ :=
  fun target state => (load tree base target, state)

/-- Loads from a table. -/
def ofTable {σ : Type} (modules : List (Text × Json)) : Loader σ := fun target state =>
  match modules.find? fun entry => entry.1 = target with
  | some entry => (.ok entry.2, state)
  | none => (.error (.notLoaded target .notListed), state)

/-- Writes down every target before it is loaded, behind a mark. -/
def recording (mark : Text) (loader : Loader (List Text)) : Loader (List Text) :=
  fun target calls => loader target (calls ++ [mark ++ target])

end Loader

end ImportMeter
