/-
This file defines what is logged: events with a level, a target, a message and named fields.
-/
import ImportMeter.Instrument.Mode
import ImportMeter.Timing.LoadTimer
import ImportMeter.Timing.TotalTimer

namespace ImportMeter

/-- The levels in use, the most severe first. -/
inductive Level where
  | warn
  | info
  | debug
  deriving DecidableEq

namespace Level

def name : Level → String
  | .warn => "WARN"
  | .info => "INFO"
  | .debug => "DEBUG"

def rank : Level → Nat
  | .warn => 0
  | .info => 1
  | .debug => 2

/-- True if events of the second level are shown where the first one is asked for. -/
def shows (asked level : Level) : Bool := level.rank ≤ asked.rank

end Level

/-- What is worth a line in the log. -/
inductive Event where
  /-- A module was loaded. -/
  | loaded (caller : Text) (package : Option Text) (line : Text)
  /-- The total of a timer was reported. -/
  | totalled (loads : UInt64) (line : Text)
  /-- A dynamic import was left as it is. -/
  | importSkipped (file : Path) (diagnostic : Diagnostic)
  /-- The import of the entry point was kept because its name is still used. -/
  | importKept (file : Path) (name : Text)
  | runStarted (mode : Mode) (files : Nat)
  | fileFailed (file : Path) (reason : Text)
  /-- A manifest was passed over in the search for a workspace root. -/
  | manifestUnreadable (file : Path) (reason : Text)
  | membersListed (root : Path) (count : Nat)
  /-- No name was found for the package of an importer. -/
  | packageUnknown (importer reason : Text)
  | configurationFound (file : Path)

namespace Event

def level : Event → Level
  | .totalled .. => .info
  | .importSkipped .. | .fileFailed .. | .manifestUnreadable .. => .warn
  | _ => .debug

/-- The part of the program that an event comes from. -/
def target : Event → String
  | .loaded .. | .totalled .. => "viscera::imports"
  | .importSkipped .. => "viscera::transform::inject"
  | .importKept .. => "viscera::transform::remove"
  | .runStarted .. | .fileFailed .. => "viscera::transform::runner"
  | .manifestUnreadable .. | .membersListed .. => "viscera::workspace"
  | .packageUnknown .. => "viscera::resolver"
  | .configurationFound .. => "viscera::config"

def message : Event → Text
  | .loaded _ _ line => line
  | .totalled _ line => line
  | .importSkipped file diagnostic =>
    file.letters ++ ':' :: Nat.toDigits 10 diagnostic.line ++ ": ".toList ++ diagnostic.message
  | .importKept file name =>
    file.letters ++ ": keeping import of ".toList ++ name ++ ", still referenced".toList
  | .runStarted mode files =>
    mode.name.toList ++ " over ".toList ++ Nat.toDigits 10 files ++ " file(s)".toList
  | .fileFailed file reason => file.letters ++ ": ".toList ++ reason
  | .manifestUnreadable file reason =>
    "Error reading ".toList ++ file.letters ++ ": ".toList ++ reason
  | .membersListed .. => "enumerated workspace members".toList
  | .packageUnknown importer reason =>
    "no package name for ".toList ++ importer ++ ": ".toList ++ reason
  | .configurationFound file => "using config ".toList ++ file.letters

/-- The named values of an event. -/
def fields : Event → List (String × Text)
  | .loaded caller package _ => [("caller", caller), ("package", package.getD ['-'])]
  | .totalled loads _ => [("loads", Nat.toDigits 10 loads.toNat)]
  | .membersListed root count => [("root", root.letters), ("count", Nat.toDigits 10 count)]
  | _ => []

/-- What is logged while a file is changed. -/
def ofOutcome (file : Path) (outcome : Outcome) : List Event :=
  outcome.diagnostics.map (.importSkipped file) ++ (outcome.keptName.map (.importKept file)).toList

/-- What is logged when the latest load of a caller is summarized. -/
def ofSummary (timer : LoadTimer) : List Event :=
  (timer.summary?.map (.loaded timer.caller timer.package)).toList

/-- What is logged when a total is reported. -/
def ofTotal (timer : TotalTimer) : Event := .totalled timer.loads timer.line

end Event

end ImportMeter
