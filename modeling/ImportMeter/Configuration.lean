/-
This file defines the configuration and reads it from TOML texts and files. Settings that are not
given keep their defaults, and unknown ones are refused. Relative paths in a file are taken relative
to the directory that holds it.
-/
import ImportMeter.Error
import ImportMeter.Instrument.Basic
import ImportMeter.Load.Resolver
import ImportMeter.Toml.Reader

namespace ImportMeter

structure Configuration where
  /-- The module that exports the entry point, as it is written. -/
  entryModule : Path
  entryName : Text
  marker : Text
  /-- What the names of workspace packages begin with. -/
  scope : Text
  matching : MemberMatch
  /-- The extensions of the files that are changed. -/
  extensions : List Text
  /-- Glob patterns of what is passed over. -/
  ignored : List Text
  /-- The directory against which relative paths are resolved. -/
  baseDirectory : Option Path

/-- Why there is no configuration. -/
inductive ConfigurationFault where
  /-- The text is malformed, or a setting is unknown or of the wrong type. -/
  | malformed
  | emptyEntryName
  | emptyMarker
  | noExtensions
  | unreadable (file : Path) (fault : FileFault)
  | inFile (file : Path) (fault : ConfigurationFault)

namespace ConfigurationFault

/-- The messages of a fault and of what caused it, the outermost first. -/
def chain : ConfigurationFault → List Text
  | .malformed =>
    ["Failed to parse viscera configuration".toList, "TOML parse error: invalid text".toList]
  | .emptyEntryName => ["instrumentation.entry_name must not be empty".toList]
  | .emptyMarker => ["instrumentation.marker must not be empty".toList]
  | .noExtensions => ["transform.extensions must list at least one extension".toList]
  | .unreadable file fault =>
    ["Failed to read config file: ".toList ++ file.letters, fault.message]
  | .inFile file fault => ("Invalid config file: ".toList ++ file.letters) :: fault.chain

end ConfigurationFault

namespace Configuration

/-- The name of a configuration file that is found by its place. -/
def fileName : Path := .ofString "viscera.toml"

def default : Configuration where
  entryModule := .ofString "src/profileImport.js"
  entryName := Instrumentation.defaultEntryName
  marker := Instrumentation.defaultMarker
  scope := Specifier.defaultScope
  matching := .substring
  extensions := ["js".toList, "mjs".toList, "cjs".toList, "jsx".toList]
  ignored := ["**/node_modules/**".toList]
  baseDirectory := none

/-- True for the default settings, paths being compared by their components. -/
def isDefault (configuration : Configuration) : Bool :=
  configuration.entryModule.components = default.entryModule.components &&
    configuration.entryName = default.entryName && configuration.marker = default.marker &&
    configuration.scope = default.scope && configuration.matching = default.matching &&
    configuration.extensions = default.extensions && configuration.ignored = default.ignored &&
    configuration.baseDirectory.isNone

def textOf? : Toml → Option Text
  | .text value => some value
  | _ => none

def textsOf? : Toml → Option (List Text)
  | .list items => items.mapM textOf?
  | _ => none

/-- The matching rule of a name. -/
def matchingOf? (name : Text) : Option MemberMatch :=
  [MemberMatch.substring, MemberMatch.exact].find? fun rule => rule.name.toList = name

/-- True for an empty table and an empty list. -/
def isEmpty : Toml → Bool
  | .list items => items.isEmpty
  | .table _ members => members.isEmpty
  | _ => false

/-- The matching rule that a value names, as a text or as the only key of a table. -/
def readMatching? : Toml → Option MemberMatch
  | .text name => matchingOf? name
  | .table _ [(name, value)] => if isEmpty value then matchingOf? name else none
  | _ => none

/-- A setting: its name, and what its value does to the configuration. -/
abbrev Setting := Text × (Toml → Configuration → Option Configuration)

def instrumentationSettings : List Setting := [
  ("entry_module".toList, fun value configuration => (textOf? value).map fun text =>
    { configuration with entryModule := ⟨text⟩ }),
  ("entry_name".toList, fun value configuration => (textOf? value).map fun text =>
    { configuration with entryName := text }),
  ("marker".toList, fun value configuration => (textOf? value).map fun text =>
    { configuration with marker := text })]

def resolverSettings : List Setting := [
  ("workspace_scope".toList, fun value configuration => (textOf? value).map fun text =>
    { configuration with scope := text }),
  ("member_match".toList, fun value configuration => (readMatching? value).map fun rule =>
    { configuration with matching := rule })]

def transformSettings : List Setting := [
  ("extensions".toList, fun value configuration => (textsOf? value).map fun texts =>
    { configuration with extensions := texts }),
  ("ignore".toList, fun value configuration => (textsOf? value).map fun texts =>
    { configuration with ignored := texts })]

/-- Applies the members of a table; every one has to be a known setting. -/
def applyMembers (settings : List Setting) (configuration : Configuration)
    (members : Toml.Members) : Option Configuration :=
  members.foldlM (fun configuration member => do
    let setting ← settings.find? fun setting => setting.1 = member.1
    setting.2 member.2 configuration) configuration

/-- Applies the items of a list to the settings in their order. -/
def applyItems (configuration : Configuration) (settings : List Setting) (items : List Toml) :
    Option Configuration :=
  (settings.zip items).foldlM (fun configuration pair => pair.1.2 pair.2 configuration)
    configuration

/-- Applies a group of settings, given as a table or as a list of values in their order. -/
def applyGroup (settings : List Setting) (value : Toml) (configuration : Configuration) :
    Option Configuration :=
  match value with
  | .table _ members => applyMembers settings configuration members
  | .list items => applyItems configuration settings items
  | _ => none

/-- The groups that settings come in. -/
def groups : List Setting := [
  ("instrumentation".toList, applyGroup instrumentationSettings),
  ("resolver".toList, applyGroup resolverSettings),
  ("transform".toList, applyGroup transformSettings)]

/-- The configuration that a TOML text spells, its values unchecked. -/
def ofText? (text : Text) : Option Configuration := do
  applyMembers groups default (← Toml.read? text)

/-- Refuses settings that cannot be used. -/
def check (configuration : Configuration) : Except ConfigurationFault Configuration :=
  if configuration.entryName = [] then .error .emptyEntryName
  else if configuration.marker = [] then .error .emptyMarker
  else if configuration.extensions = [] then .error .noExtensions
  else .ok configuration

/-- The configuration that a TOML text spells. -/
def read (text : Text) : Except ConfigurationFault Configuration :=
  match ofText? text with
  | some configuration => configuration.check
  | none => .error .malformed

/-- The configuration with relative paths taken relative to a directory. -/
def basedAt (configuration : Configuration) (directory : Path) : Configuration :=
  { configuration with baseDirectory := some directory }

/-- The configuration in a file. -/
def ofFile (tree : FileTree) (file : Path) : Except ConfigurationFault Configuration :=
  match tree.readText file with
  | .error fault => .error (.unreadable file fault)
  | .ok text =>
    match read text with
    | .error fault => .error (.inFile file fault)
    | .ok configuration => .ok (configuration.basedAt
        ((file.parent?.getD ⟨['.']⟩).absolutize tree.workingDirectory))

/-- The nearest configuration file at or above a directory. -/
def discover? (tree : FileTree) (start : Path) : Option Path :=
  ((start.absolutize tree.workingDirectory).ancestors.map (·.join fileName)).find? tree.isFile

/-- The configuration in a file, or in the nearest one above a directory, or else the default. -/
def load (tree : FileTree) (file : Option Path) (directory : Path) :
    Except ConfigurationFault Configuration :=
  match file.or (discover? tree directory) with
  | some file => ofFile tree file
  | none => .ok (default.basedAt directory)

/-- What is logged while the configuration is loaded. -/
def loadEvents (tree : FileTree) (file : Option Path) (directory : Path) : List Event :=
  if file.isSome then [] else ((discover? tree directory).map .configurationFound).toList

/-- The path of the module that exports the entry point. -/
def entryPath (configuration : Configuration) (workingDirectory : Path) : Path :=
  match configuration.baseDirectory with
  | some directory =>
    if configuration.entryModule.isAbsolute then
      configuration.entryModule.absolutize workingDirectory
    else (directory.join configuration.entryModule).normalize
  | none => configuration.entryModule.absolutize workingDirectory

/-- The instrumentation that is configured. -/
def instrumentation (configuration : Configuration) (workingDirectory : Path) : Instrumentation :=
  ⟨(configuration.entryPath workingDirectory).absolutize workingDirectory,
    configuration.entryName, configuration.marker⟩

/-- A resolver that follows the configuration. -/
def resolver {σ : Type} (configuration : Configuration) (packages : PackageIndex)
    (loader : Loader σ) (timer : Nat) : Resolver σ :=
  ⟨configuration.scope, configuration.matching, packages, loader, timer⟩

end Configuration

end ImportMeter
