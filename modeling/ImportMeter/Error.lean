/-
This file lists what can go wrong while packages are searched, modules are resolved and loaded, and
scripts are changed.
-/
import ImportMeter.FileTree.Basic
import ImportMeter.Glob.Pattern
import ImportMeter.Json.Fault

namespace ImportMeter

/-- Why a module is not loaded. -/
inductive LoadFault where
  /-- The location is no file URL that names a path. -/
  | locationUnsupported
  /-- No directory of installed packages holds the package. -/
  | packageNotInstalled
  | pathMissing (path : Path)
  /-- The file that a package starts with does not exist. -/
  | entryMissing (path : Path)
  | notListed

def LoadFault.message : LoadFault → Text
  | .locationUnsupported => "unsupported module location".toList
  | .packageNotInstalled => "package not found in node_modules".toList
  | .pathMissing path => path.letters ++ " does not exist".toList
  | .entryMissing path => "entry point ".toList ++ path.letters ++ " does not exist".toList
  | .notListed => "not in table".toList

inductive Error where
  | importerMissing
  /-- The location of the importer names no path. -/
  | importerUnsupported (importer : Text)
  | noManifestAbove (directory : Path)
  | nameMissing
  /-- Neither a manifest nor a directory was given to find a name with. -/
  | nothingToName
  /-- No package names are known at all. -/
  | packagesUnknown
  | noMember (specifier : Text) (cause : Option Error)
  | noWorkspaceRoot (directory : Path)
  /-- The path looks like that of a file where a directory is needed. -/
  | notDirectoryName (path : Path)
  | notLoaded (target : Text) (fault : LoadFault)
  | notScript (file : Path)
  | badPattern (pattern : Text) (fault : Glob.PatternFault)
  | unusable (path : Path) (fault : FileFault)
  | notJson (file : Path) (fault : JsonFault)

namespace Error

def message : Error → Text
  | .importerMissing => "importMetaUrl is required for relative module paths".toList
  | .importerUnsupported importer => "unsupported importer location: ".toList ++ importer
  | .noManifestAbove directory =>
    "manifest error: Could not find package.json above ".toList ++ directory.letters
  | .nameMissing =>
    "manifest error: package.json is missing the required 'name' field".toList
  | .nothingToName =>
    "manifest error: Either a manifest or a directory must be provided".toList
  | .packagesUnknown => "manifest error: no package".toList
  | .noMember specifier _ => "Could not find workspace member for ".toList ++ specifier
  | .noWorkspaceRoot directory =>
    "no workspace root found above ".toList ++ directory.letters
  | .notDirectoryName path => "Invalid start directory: ".toList ++ path.letters
  | .notLoaded target fault =>
    "failed to load '".toList ++ target ++ "': ".toList ++ fault.message
  | .notScript file => file.letters ++ ":?:?: cannot parse source".toList
  | .badPattern pattern fault =>
    "invalid glob pattern '".toList ++ pattern ++ "': ".toList ++ fault.message
  | .unusable path fault => "IO error on ".toList ++ path.letters ++ ": ".toList ++ fault.message
  | .notJson file fault => "JSON error in ".toList ++ file.letters ++ ": ".toList ++ fault.message

/-- The messages of what caused an error, the nearest first. -/
def causes : Error → List Text
  | .noMember _ (some cause) => cause.message :: cause.causes
  | .unusable _ fault => [fault.message]
  | .notJson _ fault => [fault.message]
  | _ => []

end Error

end ImportMeter
