/-
This file reads the arguments of the command line. Options may stand in front of a command and behind
it, values may follow an option as the next argument or be attached to it, and two dashes end the
options.
-/
import ImportMeter.Instrument.Mode
import ImportMeter.Path.Basic

namespace ImportMeter

/-- How a report is written. -/
inductive ReportFormat where
  | text
  | json
  deriving DecidableEq

def ReportFormat.name : ReportFormat → String
  | .text => "text"
  | .json => "json"

inductive Command where
  /-- Changes files and everything below directories. -/
  | transform (mode : Mode) (paths : List Path) (dryRun print : Bool) (entryModule : Option Path)
  /-- Shows where a specifier leads. -/
  | resolve (specifier : Text) (importer : Path) (format : ReportFormat)
  /-- Loads a module and reports how long that took. -/
  | load (specifier : Text) (importer : Path) (format : ReportFormat)
  /-- Lists the members of a workspace. -/
  | workspace (directory : Path) (format : ReportFormat)
  deriving DecidableEq

structure Arguments where
  /-- Shows everything that is logged. -/
  debug : Bool
  configuration : Option Path
  command : Command
  deriving DecidableEq

/-- The commands, by name only. -/
inductive CommandName where
  | inject
  | remove
  | resolve
  | load
  | workspace
  deriving DecidableEq

namespace CommandName

def all : List CommandName := [.inject, .remove, .resolve, .load, .workspace]

def name : CommandName → String
  | .inject => "inject"
  | .remove => "remove"
  | .resolve => "resolve"
  | .load => "load"
  | .workspace => "workspace"

def ofText? (text : Text) : Option CommandName := all.find? fun command => command.name.toList = text

end CommandName

/-- Why there are no arguments to go by: a mistake, or a question that is answered instead. -/
inductive UsageFault where
  | invalidValue
  | unknownArgument
  | invalidCommand
  | tooManyValues
  /-- An option was given twice. -/
  | conflict
  | missingArgument
  | missingCommand
  | nothingGiven
  | helpWanted (command : Option CommandName)
  | versionWanted
  deriving DecidableEq

/-- The exit code of a program that stops there. -/
def UsageFault.exitCode : UsageFault → Nat
  | .helpWanted _ | .versionWanted => 0
  | _ => 2

/-- The options, and the arguments that are none. -/
inductive Parameter where
  | debug
  | configuration
  | help
  | version
  | dryRun
  | print
  | entryModule
  | importer
  | format
  | positional
  deriving DecidableEq

namespace Parameter

/-- How options are written, and the commands that take them; `none` stands for what is in front of a
command. -/
structure Spelling where
  parameter : Parameter
  long : String
  short : Option Char
  takenBy : Option CommandName → Bool

def spellings : List Spelling := [
  ⟨.debug, "debug", none, fun _ => true⟩,
  ⟨.configuration, "config", some 'c', fun _ => true⟩,
  ⟨.help, "help", some 'h', fun _ => true⟩,
  ⟨.version, "version", some 'V', fun command => command.isNone⟩,
  ⟨.dryRun, "dry-run", some 'n', fun command => command = some .inject || command = some .remove⟩,
  ⟨.print, "print", none, fun command => command = some .inject || command = some .remove⟩,
  ⟨.entryModule, "entry-module", none,
    fun command => command = some .inject || command = some .remove⟩,
  ⟨.importer, "from", none, fun command => command = some .resolve || command = some .load⟩,
  ⟨.format, "format", none, fun command =>
    command = some .resolve || command = some .load || command = some .workspace⟩]

def ofLong? (command : Option CommandName) (text : Text) : Option Parameter :=
  (spellings.find? fun spelling =>
    spelling.long.toList = text && spelling.takenBy command).map Spelling.parameter

def ofShort? (command : Option CommandName) (letter : Char) : Option Parameter :=
  (spellings.find? fun spelling =>
    spelling.short = some letter && spelling.takenBy command).map Spelling.parameter

def takesValue : Parameter → Bool
  | .configuration | .entryModule | .importer | .format | .positional => true
  | _ => false

def formatOf? (text : Text) : Option ReportFormat :=
  [ReportFormat.text, ReportFormat.json].find? fun format => format.name.toList = text

/-- True if a text can be the value of a parameter. The specifier of a module may be empty, a path may
not. -/
def accepts (command : Option CommandName) (parameter : Parameter) (value : Text) : Bool :=
  match parameter with
  | .format => (formatOf? value).isSome
  | .positional => command = some .resolve || command = some .load || value ≠ []
  | _ => value ≠ []

/-- True if a command takes any number of arguments that are no options. -/
def isRepeated (command : Option CommandName) : Bool :=
  command = some .inject || command = some .remove

end Parameter

/-- What has been read so far: the parameters given with their values, and the parameter whose values
are still being gathered. -/
structure ArgumentDraft where
  given : List (Parameter × List Text)
  pending : Option (Parameter × List Text)

namespace ArgumentDraft

open Parameter

def empty : ArgumentDraft := ⟨[], none⟩

def has (draft : ArgumentDraft) (parameter : Parameter) : Bool :=
  draft.given.any fun entry => entry.1 = parameter

/-- All values of a parameter. -/
def values (draft : ArgumentDraft) (parameter : Parameter) : List Text :=
  (draft.given.filter fun entry => entry.1 = parameter).flatMap Prod.snd

def value? (draft : ArgumentDraft) (parameter : Parameter) : Option Text :=
  (draft.values parameter).head?

/-- Adds the pending values to those given. -/
def settle (command : Option CommandName) (draft : ArgumentDraft) :
    Except UsageFault ArgumentDraft :=
  match draft.pending with
  | none => .ok draft
  | some (parameter, values) =>
    if values.isEmpty then .error .invalidValue
    else if parameter ≠ .positional && draft.has parameter then .error .conflict
    else if values.all (parameter.accepts command) then
      .ok ⟨draft.given ++ [(parameter, values)], none⟩
    else .error .invalidValue

/-- True if the next argument is the value of an option. -/
def awaitsValue (draft : ArgumentDraft) : Bool :=
  match draft.pending with
  | some (_, []) => true
  | _ => false

/-- Adds an option that takes no value. -/
def addFlag (command : Option CommandName) (draft : ArgumentDraft) (parameter : Parameter) :
    Except UsageFault ArgumentDraft := do
  let draft ← draft.settle command
  if parameter = .help then .error (.helpWanted command)
  else if parameter = .version then .error .versionWanted
  else if draft.has parameter then .error .conflict
  else .ok ⟨draft.given ++ [(parameter, [])], none⟩

/-- Adds an option with the value attached to it, or leaves it to be given by the next argument. -/
def addOption (command : Option CommandName) (draft : ArgumentDraft) (parameter : Parameter)
    (attached : Option Text) : Except UsageFault ArgumentDraft := do
  let draft ← draft.settle command
  match attached with
  | some value => settle command ⟨draft.given, some (parameter, [value])⟩
  | none => .ok ⟨draft.given, some (parameter, [])⟩

/-- The name and the attached value of an option behind its two dashes. -/
def splitLong (text : Text) : Text × Option Text :=
  match text.dropWhile (· ≠ '=') with
  | [] => (text, none)
  | _ :: value => (text.takeWhile (· ≠ '='), some value)

/-- Reads an option behind its two dashes. -/
def readLong (command : Option CommandName) (draft : ArgumentDraft) (text : Text) :
    Except UsageFault ArgumentDraft :=
  let (name, attached) := splitLong text
  match ofLong? command name with
  | none => .error .unknownArgument
  | some parameter =>
    if parameter.takesValue then draft.addOption command parameter attached
    else if attached.isSome then .error .tooManyValues
    else draft.addFlag command parameter

/-- Reads options of one letter each behind a dash. What follows one that takes a value is its value. -/
def readShort (command : Option CommandName) (draft : ArgumentDraft) :
    Text → Except UsageFault ArgumentDraft
  | [] => .ok draft
  | letter :: rest =>
    match ofShort? command letter with
    | none => .error .unknownArgument
    | some parameter =>
      if parameter.takesValue then
        draft.addOption command parameter
          (match rest with
          | [] => none
          | '=' :: value => some value
          | value => some value)
      else
        match draft.addFlag command parameter with
        | .ok draft => readShort command draft rest
        | .error fault => .error fault

/-- Adds an argument that is no option. -/
def addPositional (command : Option CommandName) (draft : ArgumentDraft) (isTrailing : Bool)
    (argument : Text) : Except UsageFault ArgumentDraft :=
  match command with
  | none =>
    if isTrailing && ((CommandName.ofText? argument).isSome || argument = "help".toList) then
      .error .unknownArgument
    else .error .invalidCommand
  | some _ =>
    match draft.pending with
    | some (.positional, values) =>
      if isRepeated command then .ok { draft with pending := some (.positional, values ++ [argument]) }
      else .error .unknownArgument
    | _ =>
      if !isRepeated command && draft.has .positional then .error .unknownArgument
      else do
        let draft ← draft.settle command
        .ok ⟨draft.given, some (.positional, [argument])⟩

/-- How an argument looks. -/
inductive Shape where
  | escape
  | long (text : Text)
  | short (text : Text)
  | value

def shapeOf : Text → Shape
  | ['-', '-'] => .escape
  | '-' :: '-' :: rest => .long rest
  | ['-'] => .value
  | '-' :: rest => .short rest
  | _ => .value

/-- Answers a question for help on what some names lead to. -/
def helpOn : List Text → UsageFault
  | [] => .helpWanted none
  | [name] =>
    match CommandName.ofText? name with
    | some command => .helpWanted (some command)
    | none => if name = "help".toList then .helpWanted none else .invalidCommand
  | _ => .invalidCommand

/-- Reads arguments up to their end, or up to the name of a command in front of which they stand. -/
def read (command : Option CommandName) (isTrailing : Bool) (draft : ArgumentDraft) :
    List Text → Except UsageFault (ArgumentDraft × Option (CommandName × List Text))
  | [] => .ok (draft, none)
  | argument :: rest =>
    let isFree := command.isNone && !isTrailing && !draft.awaitsValue
    if isFree && argument = "help".toList then .error (helpOn rest)
    else match if isFree then CommandName.ofText? argument else none with
      | some found => .ok (draft, some (found, rest))
      | none =>
        if isTrailing then
          match draft.addPositional command true argument with
          | .ok draft => read command true draft rest
          | .error fault => .error fault
        else match shapeOf argument with
          | .escape => read command true draft rest
          | .long text =>
            match draft.readLong command text with
            | .ok draft => read command false draft rest
            | .error fault => .error fault
          | .short text =>
            match draft.readShort command text with
            | .ok draft => read command false draft rest
            | .error fault => .error fault
          | .value =>
            match draft.pending with
            | some (parameter, []) =>
              read command false { draft with pending := some (parameter, [argument]) } rest
            | _ =>
              match draft.addPositional command false argument with
              | .ok draft => read command false draft rest
              | .error fault => .error fault

/-- Where relative paths begin if nothing is said. -/
def here : Text := ['.']

/-- The command with the parameters given for it. -/
def commandOf (command : CommandName) (draft : ArgumentDraft) : Except UsageFault Command :=
  let format := ((draft.value? .format).bind formatOf?).getD .text
  let importer : Path := ⟨(draft.value? .importer).getD here⟩
  let transform (mode : Mode) : Except UsageFault Command :=
    if draft.values .positional = [] then .error .missingArgument
    else .ok (.transform mode ((draft.values .positional).map Path.mk) (draft.has .dryRun)
      (draft.has .print) ((draft.value? .entryModule).map Path.mk))
  match command with
  | .inject => transform .inject
  | .remove => transform .remove
  | .resolve =>
    match draft.value? .positional with
    | some specifier => .ok (.resolve specifier importer format)
    | none => .error .missingArgument
  | .load =>
    match draft.value? .positional with
    | some specifier => .ok (.load specifier importer format)
    | none => .error .missingArgument
  | .workspace => .ok (.workspace ⟨(draft.value? .positional).getD here⟩ format)

end ArgumentDraft

namespace Arguments

open ArgumentDraft

/-- What is wrong where no command is given. -/
def withoutCommand (draft : ArgumentDraft) : UsageFault :=
  if draft.given.isEmpty then .nothingGiven else .missingCommand

/-- The arguments that a command line spells. An option given behind the command goes before the same
one in front of it. -/
def read (arguments : List Text) : Except UsageFault Arguments := do
  match ← ArgumentDraft.read none false .empty arguments with
  | (front, none) => .error (withoutCommand (← front.settle none))
  | (front, some (name, rest)) =>
    let (behind, _) ← ArgumentDraft.read (some name) false .empty rest
    let behind ← behind.settle (some name)
    let command ← commandOf name behind
    let front ← front.settle none
    .ok ⟨front.has .debug || behind.has .debug,
      ((behind.value? .configuration).or (front.value? .configuration)).map Path.mk, command⟩

end Arguments

end ImportMeter
