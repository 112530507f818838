/-
This file holds what the program says about itself.
-/
import ImportMeter.Command.Arguments

namespace ImportMeter.Help

def version : Text := "viscera 0.3.0\n".toList

def transformHelp (mode : String) (about : String) : String :=
  about ++ "\n\nUsage: viscera " ++ mode ++ " [OPTIONS] <PATH>...\n\n" ++
  "Arguments:\n  <PATH>...  Files or directories to rewrite\n\n" ++
  "Options:\n" ++
  "      --debug                Enable debug tracing output to stderr\n" ++
  "  -n, --dry-run              Report what would change without writing files\n" ++
  "  -c, --config <FILE>        Configuration file (default: nearest viscera.toml, " ++
  "then built-in defaults)\n" ++
  "      --print                Print rewritten sources to stdout instead of writing them\n" ++
  "      --entry-module <FILE>  Module exporting the entry point (overrides the config file)\n" ++
  "  -h, --help                 Print help\n"

def targetHelp (command : String) (about : String) : String :=
  about ++ "\n\nUsage: viscera " ++ command ++ " [OPTIONS] <MODULE>\n\n" ++
  "Arguments:\n  <MODULE>  Module path as it would be passed to import()\n\n" ++
  "Options:\n" ++
  "      --debug            Enable debug tracing output to stderr\n" ++
  "      --from <PATH>      Importing file; a directory stands for a module directly inside it " ++
  "[default: .]\n" ++
  "  -c, --config <FILE>    Configuration file (default: nearest viscera.toml, " ++
  "then built-in defaults)\n" ++
  "      --format <FORMAT>  Output format (text or json) [default: text] " ++
  "[possible values: text, json]\n" ++
  "  -h, --help             Print help\n"

def workspaceHelp : String :=
  "List the members of the workspace containing a directory\n\n" ++
  "Usage: viscera workspace [OPTIONS] [DIR]\n\n" ++
  "Arguments:\n  [DIR]  Directory inside the workspace [default: .]\n\n" ++
  "Options:\n" ++
  "      --debug            Enable debug tracing output to stderr\n" ++
  "      --format <FORMAT>  Output format (text or json) [default: text] " ++
  "[possible values: text, json]\n" ++
  "  -c, --config <FILE>    Configuration file (default: nearest viscera.toml, " ++
  "then built-in defaults)\n" ++
  "  -h, --help             Print help\n"

def programHelp : String :=
  "Profile dynamic import() load times in JavaScript workspaces\n\n" ++
  "Usage: viscera [OPTIONS] <COMMAND>\n\n" ++
  "Commands:\n" ++
  "  inject     Wrap literal import() calls in the profiling entry point\n" ++
  "  remove     Unwrap marked profiling calls back into import()\n" ++
  "  resolve    Show how a module path resolves from an importing file\n" ++
  "  load       Load a module through the profiler and report its load time\n" ++
  "  workspace  List the members of the workspace containing a directory\n" ++
  "  help       Print this message or the help of the given subcommand(s)\n\n" ++
  "Options:\n" ++
  "      --debug          Enable debug tracing output to stderr\n" ++
  "  -c, --config <FILE>  Configuration file (default: nearest viscera.toml, " ++
  "then built-in defaults)\n" ++
  "  -h, --help           Print help\n" ++
  "  -V, --version        Print version\n"

/-- What is said about a command, or about the program. -/
def text : Option CommandName → Text
  | none => programHelp.toList
  | some .inject =>
    (transformHelp "inject" "Wrap literal import() calls in the profiling entry point").toList
  | some .remove =>
    (transformHelp "remove" "Unwrap marked profiling calls back into import()").toList
  | some .resolve =>
    (targetHelp "resolve" "Show how a module path resolves from an importing file").toList
  | some .load =>
    (targetHelp "load" "Load a module through the profiler and report its load time").toList
  | some .workspace => workspaceHelp.toList

/-- What is said about a mistake on the command line. -/
def complaint : UsageFault → Text
  | .invalidValue => "error: a value is missing or invalid\n".toList
  | .unknownArgument => "error: unexpected argument found\n".toList
  | .invalidCommand => "error: unrecognized subcommand\n".toList
  | .tooManyValues => "error: unexpected value found\n".toList
  | .conflict => "error: an argument cannot be used multiple times\n".toList
  | .missingArgument => "error: a required argument was not provided\n".toList
  | .missingCommand => "error: a subcommand is required but one was not provided\n".toList
  | .nothingGiven => programHelp.toList
  | .helpWanted _ | .versionWanted => []

end ImportMeter.Help
