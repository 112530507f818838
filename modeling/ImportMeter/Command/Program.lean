/-
This file says what the program does: from its arguments and a tree of files to what it prints, its
exit code and the tree it leaves behind.
-/
import ImportMeter.Command.Failure
import ImportMeter.Command.Help
import ImportMeter.Instrument.Run
import ImportMeter.Json.Printer

namespace ImportMeter

/-- What the program has printed and done. -/
structure Transcript where
  output : Text
  complaints : Text
  /-- The failure that the program ends with. -/
  failure : Option Failure
  events : List Event
  /-- The files that were written. -/
  written : List Path
  tree : FileTree

namespace Transcript

/-- Nothing has been done to a tree yet. -/
def start (tree : FileTree) : Transcript := ⟨[], [], none, [], [], tree⟩

def fail (tree : FileTree) (failure : Failure) : Transcript :=
  { start tree with failure := some failure }

end Transcript

namespace Program

open Transcript

def countText (count : Nat) : Text := Nat.toDigits 10 count

/-- How the program ends if some files failed. -/
def failedFiles (count : Nat) : Option Failure :=
  if count = 0 then none
  else some (.plain (countText count ++ " file(s) could not be transformed".toList))

/-- Why a file has no changed text to print. -/
def printFailure (path : Path) : Error → Failure
  | .unusable _ fault =>
    (Failure.plain fault.message).within ("Failed to read ".toList ++ path.letters)
  | error => (Failure.ofError error).within ("Failed to transform ".toList ++ path.letters)

/-- What is printed of one file, or why nothing is. -/
def printFile (options : RunOptions) (instrumentation : Instrumentation) (tree : FileTree)
    (path : Path) : Transcript :=
  match options.transform instrumentation tree path with
  | .ok (source, outcome) =>
    { start tree with output := outcome.textOr source, events := Event.ofOutcome path outcome }
  | .error error => fail tree (printFailure path error)

/-- Prints the changed text of every file. Nothing is written. -/
def printChanged (options : RunOptions) (instrumentation : Instrumentation) (tree : FileTree)
    (paths : List Path) : Transcript :=
  match options.selection.collect tree paths with
  | .error error => fail tree (.ofError error)
  | .ok files =>
    let printed := files.map (printFile options instrumentation tree)
    let failures := printed.filterMap Transcript.failure
    { start tree with
      output := printed.flatMap Transcript.output
      complaints := failures.flatMap fun reason => "error: ".toList ++ reason.line ++ ['\n']
      failure := failedFiles failures.length
      events := printed.flatMap Transcript.events }

def diagnosticLine (entry : Path × Diagnostic) : Text :=
  entry.1.letters ++ ':' :: countText entry.2.line ++ ':' :: countText entry.2.column ++
    ": ".toList ++ entry.2.message ++ ['\n']

def failureLine (entry : Path × Error) : Text :=
  "error: ".toList ++ entry.1.letters ++ ": ".toList ++ entry.2.message ++ ['\n']

/-- The files that a run has written. -/
def writtenIn (options : RunOptions) (summary : RunSummary) : List Path :=
  if options.dryRun then []
  else (summary.files.filter fun report => report.changed?.isSome).map FileReport.path

/-- The line about a file that changed, or would change. -/
def changeLine? (dryRun : Bool) (report : FileReport) : Option Text :=
  report.changed?.map fun rewritten =>
    (if dryRun then "would rewrite ".toList else "rewrote ".toList) ++ report.path.letters ++
      " (".toList ++ countText rewritten ++ " call site(s))\n".toList

def summaryLine (summary : RunSummary) : Text :=
  countText summary.changed ++ " changed, ".toList ++ countText summary.unmodified ++
    " unmodified, ".toList ++ countText summary.failures.length ++ " failed\n".toList

/-- Changes files and reports what came of each. -/
def changeFiles (options : RunOptions) (instrumentation : Instrumentation) (tree : FileTree)
    (paths : List Path) : Transcript :=
  match options.run instrumentation tree paths with
  | .error error => fail tree (.ofError error)
  | .ok (summary, changed) => {
      output := (summary.files.filterMap (changeLine? options.dryRun)).flatten ++
        summaryLine summary
      complaints := summary.diagnostics.flatMap diagnosticLine ++
        summary.failures.flatMap failureLine
      failure := failedFiles summary.failures.length
      events := options.events summary
      written := writtenIn options summary
      tree := changed }

/-- The location that a path given as the importer stands for. A directory stands for a module in
it. -/
def importerOf (tree : FileTree) (path : Path) : Path :=
  let path := path.absolutize tree.workingDirectory
  if tree.isDirectory path then path.join (.ofString "index.js") else path

def jsonText (text : Text) : Json := .text text

def object (members : List (String × Json)) : Json :=
  .ofMembers (members.map fun member => (member.1.toList, member.2))

/-- A resolver of the program. -/
def resolverFor (configuration : Configuration) (tree : FileTree) (base : Path) :
    Resolver Unit :=
  configuration.resolver (.ofTree tree) (.ofFiles tree base) 0

/-- Shows where a specifier leads. -/
def resolve (configuration : Configuration) (tree : FileTree) (specifier : Text) (path : Path)
    (format : ReportFormat) : Transcript :=
  let importer := (importerOf tree path).letters
  let resolver := resolverFor configuration tree tree.workingDirectory
  let events := resolver.resolveEvents specifier importer
  match resolver.resolve specifier importer with
  | .error error =>
    { fail tree ((Failure.ofError error).within ("Failed to resolve ".toList ++ specifier)) with
      events := events }
  | .ok target =>
    let kind := (resolver.classify specifier).name
    let output := match format with
      | .text =>
        specifier ++ " (".toList ++ kind.toList ++ ") -> ".toList ++ target.letters
      | .json => (object [("module", jsonText specifier), ("importer", jsonText importer),
          ("kind", jsonText kind.toList), ("resolved", jsonText target.letters)]).pretty
    { start tree with output := output ++ ['\n'], events := events }

/-- The report on a module that was loaded. -/
def loadReport (outcome : LoadOutcome) (format : ReportFormat) : Text :=
  let kind := outcome.plan.kind.name.toList
  let target := outcome.plan.target.letters
  match format with
  | .text =>
    (outcome.summary.map (· ++ ['\n'])).getD [] ++
      "resolved: ".toList ++ target ++ " (".toList ++ kind ++ ")\n".toList ++
      ((outcome.plan.package.map fun package =>
        "importer package: ".toList ++ package ++ ['\n']).getD [])
  | .json =>
    (object [("module", jsonText outcome.plan.specifier), ("kind", jsonText kind),
      ("resolved", jsonText target),
      ("package", (outcome.plan.package.map jsonText).getD .null),
      ("duration_ms", .number (.float (millisecondsOf outcome.nanoseconds))),
      ("value", outcome.value.unwrapDefault)]).pretty ++ ['\n']

/-- What the timer of a program reports when it exits. -/
def exitEvents (session : Session) : List Event :=
  session.teardown.pending.filterMap fun hook =>
    match hook with
    | .report timer => some (.ofTotal (session.timer timer))
    | .tagged _ => none

/-- Loads a module, which takes some time, and reports on it. -/
def load (configuration : Configuration) (tree : FileTree) (specifier : Text) (path : Path)
    (format : ReportFormat) (nanoseconds : Nat) : Transcript :=
  let importer := importerOf tree path
  let resolver := resolverFor configuration tree (importer.parent?.getD ⟨['/']⟩)
  let (result, session, _) :=
    resolver.load specifier (some importer.letters) none nanoseconds .start ()
  let events := resolver.loadEvents specifier (some importer.letters) result
  match result with
  | .error error =>
    { fail tree ((Failure.ofError error).within ("Failed to load ".toList ++ specifier)) with
      events := events }
  | .ok outcome =>
    { start tree with
      output := loadReport outcome format, events := events ++ exitEvents session }

/-- The report on a workspace. -/
def workspaceReport (root : Path) (members : List Path) (format : ReportFormat) : Text :=
  match format with
  | .text =>
    "workspace root: ".toList ++ root.letters ++ ['\n'] ++
      members.flatMap fun member => ' ' :: ' ' :: member.letters ++ ['\n']
  | .json =>
    (object [("root", jsonText root.letters),
      ("members", .list (members.map fun member => jsonText member.letters))]).pretty ++ ['\n']

/-- Lists the members of the workspace that a directory lies in. -/
def workspace (tree : FileTree) (path : Path) (format : ReportFormat) : Transcript :=
  let directory := path.absolutize tree.workingDirectory
  let events := Workspace.rootEvents tree directory
  match Workspace.findRoot tree directory with
  | .error error => fail tree (.ofError error)
  | .ok none =>
    { fail tree (.plain ("No workspace root found above ".toList ++ directory.letters)) with
      events := events }
  | .ok (some root) =>
    let events := events ++ Workspace.memberEvents tree directory
    match Workspace.members tree directory with
    | .error error => { fail tree (.ofError error) with events := events }
    | .ok members =>
      { start tree with output := workspaceReport root members format, events := events }

/-- Runs a command. -/
def runCommand (configuration : Configuration) (tree : FileTree) (nanoseconds : Nat) :
    Command → Transcript
  | .transform mode paths dryRun print entryModule =>
    let configured := configuration.instrumentation tree.workingDirectory
    let instrumentation := match entryModule with
      | some path => { configured with modulePath := path.absolutize tree.workingDirectory }
      | none => configured
    let options : RunOptions :=
      ⟨mode, ⟨configuration.extensions, configuration.ignored⟩, dryRun⟩
    if print then printChanged options instrumentation tree paths
    else changeFiles options instrumentation tree paths
  | .resolve specifier path format => resolve configuration tree specifier path format
  | .load specifier path format => load configuration tree specifier path format nanoseconds
  | .workspace path format => workspace tree path format

/-- Runs the program with arguments that are in order. -/
def runArguments (tree : FileTree) (nanoseconds : Nat) (arguments : Arguments) : Transcript :=
  let events := Configuration.loadEvents tree arguments.configuration tree.workingDirectory
  match Configuration.load tree arguments.configuration tree.workingDirectory with
  | .error fault => { fail tree (.ofConfiguration fault) with events := events }
  | .ok configuration =>
    let transcript := runCommand configuration tree nanoseconds arguments.command
    { transcript with events := events ++ transcript.events }

/-- How a program has ended. -/
structure Ending where
  code : Nat
  output : Text
  complaints : Text
  events : List Event
  /-- The files that were written. -/
  written : List Path
  tree : FileTree

/-- How the program ends after what it has done. -/
def Ending.ofTranscript (transcript : Transcript) : Ending where
  code := if transcript.failure.isSome then 1 else 0
  output := transcript.output
  complaints := transcript.complaints ++ (transcript.failure.map fun failure =>
    "Error: ".toList ++ failure.report ++ ['\n']).getD []
  events := transcript.events
  written := transcript.written
  tree := transcript.tree

/-- How the program ends where its arguments are not in order. -/
def Ending.ofUsage (tree : FileTree) (fault : UsageFault) : Ending where
  code := fault.exitCode
  output := match fault with
    | .helpWanted command => Help.text command
    | .versionWanted => Help.version
    | _ => []
  complaints := Help.complaint fault
  events := []
  written := []
  tree := tree

/-- Runs the program. A load takes so many nanoseconds. -/
def run (tree : FileTree) (nanoseconds : Nat) (arguments : List Text) : Ending :=
  match Arguments.read arguments with
  | .error fault => .ofUsage tree fault
  | .ok arguments => .ofTranscript (runArguments tree nanoseconds arguments)

end Program

end ImportMeter
