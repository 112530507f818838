/-
This file searches for the manifest that a directory belongs to.
-/
import ImportMeter.Error
import ImportMeter.Package.Manifest
import ImportMeter.Path.Normal

namespace ImportMeter

/-- The directories at and above a path, the nearest first; the root is not among them. -/
def FileTree.searchPath (tree : FileTree) (path : Path) : List Path :=
  (path.absolutize tree.workingDirectory).ancestors.filter fun directory =>
    directory.parent?.isSome

namespace Manifest

/-- The manifest that a file holds. -/
def ofFile (tree : FileTree) (file : Path) : Except Error Manifest :=
  match tree.readText file with
  | .error fault => .error (.unusable file fault)
  | .ok text =>
    match read text with
    | .error fault => .error (.notJson file fault)
    | .ok manifest => .ok manifest

/-- The file that would hold the manifest of a directory. A path to such a file stands for itself. -/
def candidate (directory : Path) : Path :=
  if directory.fileName? = some fileName then directory else directory.join ⟨fileName⟩

def usable? (tree : FileTree) (directory : Path) : Option (Path × Manifest) :=
  match ofFile tree (candidate directory) with
  | .ok manifest => some (candidate directory, manifest)
  | .error _ => none

/-- The nearest manifest that can be read, with its file. -/
def find (tree : FileTree) (directory : Path) : Except Error (Path × Manifest) :=
  match (tree.searchPath directory).findSome? (usable? tree) with
  | some found => .ok found
  | none => .error (.noManifestAbove directory)

/-- The package name in a manifest, without its scope. -/
def packageName (manifest : Manifest) : Except Error Text :=
  match manifest.name with
  | some name => .ok (unscopedName name)
  | none => .error .nameMissing

/-- The name of the package that a directory belongs to. -/
def packageNameOf (tree : FileTree) (directory : Path) : Except Error Text := do
  (← find tree directory).2.packageName

end Manifest

end ImportMeter
