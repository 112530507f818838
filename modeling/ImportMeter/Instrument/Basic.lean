/-
This file says what instrumentation is: where its entry point lives, how the calls it writes are
tagged, and what comes of adding or removing it.
-/
import ImportMeter.Path.Normal
import ImportMeter.Script.Call
import ImportMeter.Script.Import
import ImportMeter.Script.Grammar
import ImportMeter.Edit

namespace ImportMeter

structure Instrumentation where
  /-- The absolute path of the module that exports the entry point. -/
  modulePath : Path
  /-- The name under which the entry point is imported. -/
  entryName : Text
  /-- The fourth argument of the calls written here. -/
  marker : Text

namespace Instrumentation

def defaultEntryName : Text := "profileImport".toList

def defaultMarker : Text := "__AUTO_PROFILE__".toList

def ofModule (workingDirectory modulePath : Path) : Instrumentation :=
  ⟨modulePath.absolutize workingDirectory, defaultEntryName, defaultMarker⟩

/-- The name that calls in a file go through, and all names under which the entry point is known
there. -/
def localNames (instrumentation : Instrumentation) (binding : Option Script.ImportBinding) :
    Text × List Text :=
  let localName := (binding.bind (·.defaultLocal)).getD instrumentation.entryName
  if localName = instrumentation.entryName then (localName, [localName])
  else (localName, [localName, instrumentation.entryName])

end Instrumentation

/-- A call that was left alone, with the reason. Lines and columns begin with one, and columns count
bytes. -/
structure Diagnostic where
  line : Nat
  column : Nat
  message : Text
  deriving DecidableEq

/-- What comes of adding or removing instrumentation in one file. -/
structure Outcome where
  /-- The new text, if the file changes. -/
  text : Option Text
  /-- How many calls were rewritten. -/
  rewritten : Nat
  importAdded : Bool
  importRemoved : Bool
  diagnostics : List Diagnostic
  /-- The name for which the import was kept because it is still used. -/
  keptName : Option Text
  deriving DecidableEq

namespace Outcome

def unchanged : Outcome := ⟨none, 0, false, false, [], none⟩

def isChanged (outcome : Outcome) : Bool := outcome.text.isSome

/-- The text of the file afterwards. -/
def textOr (outcome : Outcome) (source : Text) : Text := outcome.text.getD source

end Outcome

/-- The directory in which a file's relative imports are resolved. -/
def directoryOf (workingDirectory file : Path) : Path :=
  (file.parent?.getD ⟨['.']⟩).absolutize workingDirectory

/-- The line and the column of a position in a text, both counted from one. -/
def lineAndColumn (source : Text) (position : Nat) : Nat × Nat :=
  let before := source.take position
  (before.count '\n' + 1,
    Text.utf8Length (before.reverse.takeWhile (· ≠ '\n')) + 1)

end ImportMeter
