/-
This file changes many files, one after the other. A failure stays with its file, and only files whose
text changes are written.
-/
import ImportMeter.Instrument.Collect
import ImportMeter.Instrument.Mode
import ImportMeter.Log

namespace ImportMeter

structure RunOptions where
  mode : Mode
  selection : Selection
  /-- Finds out what would change without writing it. -/
  dryRun : Bool

/-- What came of one file. -/
structure FileReport where
  path : Path
  result : Except Error Outcome

namespace FileReport

/-- How many calls were rewritten, if the file changed. -/
def changed? (report : FileReport) : Option Nat :=
  match report.result with
  | .ok outcome => if outcome.isChanged then some outcome.rewritten else none
  | .error _ => none

def isUnmodified (report : FileReport) : Bool :=
  match report.result with
  | .ok outcome => !outcome.isChanged
  | .error _ => false

def failure? (report : FileReport) : Option Error :=
  match report.result with
  | .ok _ => none
  | .error error => some error

def diagnostics (report : FileReport) : List Diagnostic :=
  match report.result with
  | .ok outcome => outcome.diagnostics
  | .error _ => []

/-- What is logged while the file is changed. -/
def events (report : FileReport) : List Event :=
  match report.result with
  | .ok outcome => Event.ofOutcome report.path outcome
  | .error error => [.fileFailed report.path error.message]

end FileReport

/-- What came of all files, in the order in which they were changed. -/
structure RunSummary where
  files : List FileReport

namespace RunSummary

/-- How many files changed. -/
def changed (summary : RunSummary) : Nat := (summary.files.filterMap FileReport.changed?).length

def unmodified (summary : RunSummary) : Nat := summary.files.countP FileReport.isUnmodified

/-- How many calls were rewritten in all files. -/
def rewritten (summary : RunSummary) : Nat := (summary.files.filterMap FileReport.changed?).foldr (· + ·) 0

def failures (summary : RunSummary) : List (Path × Error) :=
  summary.files.filterMap fun report => report.failure?.map (report.path, ·)

def diagnostics (summary : RunSummary) : List (Path × Diagnostic) :=
  summary.files.flatMap fun report => report.diagnostics.map (report.path, ·)

end RunSummary

namespace RunOptions

/-- The text of a file and what changing it comes to. Nothing is written. -/
def transform (options : RunOptions) (instrumentation : Instrumentation) (tree : FileTree)
    (path : Path) : Except Error (Text × Outcome) :=
  match tree.readText path with
  | .error fault => .error (.unusable path fault)
  | .ok source =>
    match options.mode.change? tree.workingDirectory source path instrumentation with
    | some outcome => .ok (source, outcome)
    | none => .error (.notScript path)

/-- Changes one file and writes it if its text changed. -/
def change (options : RunOptions) (instrumentation : Instrumentation) (tree : FileTree)
    (path : Path) : FileReport × FileTree :=
  match options.transform instrumentation tree path with
  | .error error => (⟨path, .error error⟩, tree)
  | .ok (_, outcome) =>
    match outcome.text with
    | none => (⟨path, .ok outcome⟩, tree)
    | some text =>
      if options.dryRun then (⟨path, .ok outcome⟩, tree)
      else match tree.writeText path text with
        | .ok tree => (⟨path, .ok outcome⟩, tree)
        | .error fault => (⟨path, .error (.unusable path fault)⟩, tree)

/-- Changes files one after the other. -/
def changeAll (options : RunOptions) (instrumentation : Instrumentation) :
    FileTree → List Path → List FileReport × FileTree
  | tree, [] => ([], tree)
  | tree, path :: rest =>
    let (report, tree) := options.change instrumentation tree path
    let (reports, tree) := changeAll options instrumentation tree rest
    (report :: reports, tree)

/-- Changes all files that some paths stand for. -/
def run (options : RunOptions) (instrumentation : Instrumentation) (tree : FileTree)
    (paths : List Path) : Except Error (RunSummary × FileTree) := do
  let files ← options.selection.collect tree paths
  let (reports, tree) := options.changeAll instrumentation tree files
  .ok (⟨reports⟩, tree)

/-- What is logged in a run with some summary. -/
def events (options : RunOptions) (summary : RunSummary) : List Event :=
  .runStarted options.mode summary.files.length :: summary.files.flatMap FileReport.events

end RunOptions

end ImportMeter
