/-
This file resolves, loads and times modules the way the injected calls ask for. A load that fails
leaves no trace in the timers.
-/
import ImportMeter.Load.Loader
import ImportMeter.Package.Workspace
import ImportMeter.Timing.Teardown

namespace ImportMeter

/-- How a workspace specifier picks its member. -/
inductive MemberMatch where
  /-- The name of the member's directory occurs in the specifier. -/
  | substring
  /-- The name of the member's directory is the last piece of the specifier. -/
  | exact
  deriving DecidableEq

namespace MemberMatch

def name : MemberMatch → String
  | .substring => "substring"
  | .exact => "exact"

def accepts (rule : MemberMatch) (specifier : Text) (member : Path) : Bool :=
  match rule with
  | .substring => Text.contains specifier member.lastSegment
  | .exact => Text.lastPiece specifier '/' = member.lastSegment

end MemberMatch

/-- Where a specifier leads: to a path, or to a loader as it stands. -/
inductive Target where
  | path (path : Path)
  | bare (specifier : Text)
  deriving DecidableEq

def Target.letters : Target → Text
  | .path found => found.letters
  | .bare specifier => specifier

/-- What is known about packages around an importer. -/
structure PackageIndex where
  members : Path → Except Error (List Path)
  /-- What is logged while the members are listed. -/
  memberEvents : Path → List Event
  packageName : Path → Except Error Text

namespace PackageIndex

/-- The packages in a tree of files. -/
def ofTree (tree : FileTree) : PackageIndex :=
  ⟨Workspace.members tree, Workspace.memberEvents tree, Manifest.packageNameOf tree⟩

/-- The same members and the same package for every importer. -/
def fixed (members : Option (List Path)) (package : Option Text) : PackageIndex where
  members directory := match members with
    | some members => .ok members
    | none => .error (.noWorkspaceRoot directory)
  memberEvents _ := []
  packageName _ := match package with
    | some package => .ok package
    | none => .error .packagesUnknown

end PackageIndex

structure Resolver (σ : Type) where
  scope : Text
  matching : MemberMatch
  packages : PackageIndex
  /-- Loads what a call brings no loader for. -/
  loader : Loader σ
  /-- The timer that loads are added to. -/
  timer : Nat

/-- What is settled before a module is loaded. -/
structure LoadPlan where
  specifier : Text
  importer : Text
  kind : ModuleKind
  target : Target
  /-- The name of the importing package, if it is known. -/
  package : Option Text

/-- Everything known about one load. -/
structure LoadOutcome where
  plan : LoadPlan
  nanoseconds : Nat
  /-- The line that reports the load. -/
  summary : Option Text
  value : Json

/-- A time in milliseconds, from whole seconds and the part below. -/
def millisecondsOf (nanoseconds : Nat) : Float :=
  ((nanoseconds / Nat.pow 10 9).toFloat + (nanoseconds % Nat.pow 10 9).toFloat / 1000000000.0) * 1000.0

/-- The timer of a single load. -/
def LoadPlan.timer (plan : LoadPlan) (nanoseconds : Nat) : LoadTimer :=
  (LoadTimer.start plan.importer plan.package).track plan.specifier (millisecondsOf nanoseconds)

def LoadPlan.outcome (plan : LoadPlan) (nanoseconds : Nat) (value : Json) : LoadOutcome :=
  ⟨plan, nanoseconds, (plan.timer nanoseconds).summary?, value⟩

namespace Resolver

variable {σ : Type}

def classify (resolver : Resolver σ) (specifier : Text) : ModuleKind :=
  ModuleKind.classify specifier resolver.scope

/-- The first member that a workspace specifier picks. -/
def resolveMember (resolver : Resolver σ) (specifier importer : Text) : Except Error Path :=
  match Specifier.importerDirectory? importer with
  | none => .error (.noMember specifier none)
  | some directory =>
    match resolver.packages.members directory with
    | .error cause => .error (.noMember specifier (some cause))
    | .ok members =>
      match members.find? (resolver.matching.accepts specifier) with
      | some member => .ok member
      | none => .error (.noMember specifier none)

/-- Where a specifier leads from an importer. Nothing is loaded. -/
def resolve (resolver : Resolver σ) (specifier importer : Text) : Except Error Target :=
  match resolver.classify specifier with
  | .relative =>
    match Specifier.resolveRelative? specifier importer with
    | some path => .ok (.path path)
    | none => .error (.importerUnsupported importer)
  | .workspace => (resolver.resolveMember specifier importer).map .path
  | .bare => .ok (.bare specifier)

/-- The package of an importer, looked up in the importer's directory. -/
def packageOf (resolver : Resolver σ) (importer : Text) : Option (Except Error Text) :=
  (Specifier.importerDirectory? importer).map resolver.packages.packageName

/-- Settles what to load. There has to be an importer. -/
def plan (resolver : Resolver σ) (specifier : Text) (importer : Option Text) :
    Except Error LoadPlan :=
  match importer.filter (· ≠ []) with
  | none => .error .importerMissing
  | some importer => do
    let target ← resolver.resolve specifier importer
    .ok ⟨specifier, importer, resolver.classify specifier, target,
      (resolver.packageOf importer).bind Except.toOption⟩

/-- Counts a load and makes sure that the total is reported in the end. -/
def count (resolver : Resolver σ) (nanoseconds : Nat) (session : Session) : Session :=
  ((session.add resolver.timer nanoseconds).ensureReport resolver.timer).2

/-- Resolves, loads and times a module. A loader brought by the call goes before the resolver's own;
`nanoseconds` is the time that the loader takes. -/
def load (resolver : Resolver σ) (specifier : Text) (importer : Option Text)
    (own : Option (Loader σ)) (nanoseconds : Nat) (session : Session) (state : σ) :
    Except Error LoadOutcome × Session × σ :=
  match resolver.plan specifier importer with
  | .error error => (.error error, session, state)
  | .ok plan =>
    match own.getD resolver.loader plan.target.letters state with
    | (.error error, state) => (.error error, session, state)
    | (.ok value, state) =>
      (.ok (plan.outcome nanoseconds value), resolver.count nanoseconds session, state)

/-- What an injected call gives: the main export of the module if it has no other. -/
def profileImport (resolver : Resolver σ) (specifier : Text) (importer : Option Text)
    (own : Option (Loader σ)) (nanoseconds : Nat) (session : Session) (state : σ) :
    Except Error Json × Session × σ :=
  let (result, session, state) :=
    resolver.load specifier importer own nanoseconds session state
  (result.map fun outcome => outcome.value.unwrapDefault, session, state)

/-- What is logged while a specifier is resolved. -/
def resolveEvents (resolver : Resolver σ) (specifier importer : Text) : List Event :=
  match resolver.classify specifier, Specifier.importerDirectory? importer with
  | .workspace, some directory => resolver.packages.memberEvents directory
  | _, _ => []

/-- What is logged about the package of an importer. -/
def packageEvents (resolver : Resolver σ) (importer : Text) : List Event :=
  match resolver.packageOf importer with
  | some (.error error) => [.packageUnknown importer error.message]
  | _ => []

/-- What is logged while a module is loaded with some result. -/
def loadEvents (resolver : Resolver σ) (specifier : Text) (importer : Option Text)
    (result : Except Error LoadOutcome) : List Event :=
  match importer.filter (· ≠ []) with
  | none => []
  | some importer =>
    resolver.packageEvents importer ++ resolver.resolveEvents specifier importer ++
      match result with
      | .ok outcome => Event.ofSummary (outcome.plan.timer outcome.nanoseconds)
      | .error _ => []

end Resolver

end ImportMeter
