import ImportMeter.Command.Arguments
import ImportMeter.Command.Failure
import ImportMeter.Command.Help
import ImportMeter.Command.Program
import ImportMeter.Configuration
import ImportMeter.Decimal.Exact
import ImportMeter.Decimal.Fixed
import ImportMeter.Decimal.Shortest
import ImportMeter.Edit
import ImportMeter.Error
import ImportMeter.FileTree.Basic
import ImportMeter.FileTree.Build
import ImportMeter.Glob.Expand
import ImportMeter.Glob.Pattern
import ImportMeter.Instrument.Basic
import ImportMeter.Instrument.Collect
import ImportMeter.Instrument.Inject
import ImportMeter.Instrument.Mode
import ImportMeter.Instrument.Remove
import ImportMeter.Instrument.Run
import ImportMeter.Json.Basic
import ImportMeter.Json.Fault
import ImportMeter.Json.Lexeme
import ImportMeter.Json.Printer
import ImportMeter.Json.Reader
import ImportMeter.Load.Loader
import ImportMeter.Load.Resolver
import ImportMeter.Log
import ImportMeter.Main
import ImportMeter.Package.Manifest
import ImportMeter.Package.Search
import ImportMeter.Package.Workspace
import ImportMeter.Path.Basic
import ImportMeter.Path.Bytes
import ImportMeter.Path.Normal
import ImportMeter.Proofs.Attempt
import ImportMeter.Proofs.Configuration
import ImportMeter.Proofs.Edit
import ImportMeter.Proofs.Edit.Sequence
import ImportMeter.Proofs.Edit.Slicing
import ImportMeter.Proofs.FileTree
import ImportMeter.Proofs.FileTree.Below
import ImportMeter.Proofs.FileTree.Files
import ImportMeter.Proofs.FileTree.Lookup
import ImportMeter.Proofs.Glob.Entry
import ImportMeter.Proofs.Glob.Listing
import ImportMeter.Proofs.Glob.Matching
import ImportMeter.Proofs.Glob.Reading
import ImportMeter.Proofs.Glob.Relocation
import ImportMeter.Proofs.Glob.Search
import ImportMeter.Proofs.Instrument.Accounting
import ImportMeter.Proofs.Instrument.Binding
import ImportMeter.Proofs.Instrument.Comments
import ImportMeter.Proofs.Instrument.Declaration
import ImportMeter.Proofs.Instrument.Deletion
import ImportMeter.Proofs.Instrument.Difference
import ImportMeter.Proofs.Instrument.Disjoint
import ImportMeter.Proofs.Instrument.Injection
import ImportMeter.Proofs.Instrument.Line
import ImportMeter.Proofs.Instrument.LineSharing
import ImportMeter.Proofs.Instrument.Recognition
import ImportMeter.Proofs.Instrument.Reference
import ImportMeter.Proofs.Instrument.Removal
import ImportMeter.Proofs.Instrument.RoundTrip
import ImportMeter.Proofs.Instrument.SecondPass
import ImportMeter.Proofs.Instrument.Shrinking
import ImportMeter.Proofs.Instrument.Slicing
import ImportMeter.Proofs.Instrument.Standing
import ImportMeter.Proofs.Instrument.Statements
import ImportMeter.Proofs.Instrument.Unwrap
import ImportMeter.Proofs.Instrument.Unwrapped
import ImportMeter.Proofs.Instrument.Usage
import ImportMeter.Proofs.Instrument.Wrapped
import ImportMeter.Proofs.Load.Counting
import ImportMeter.Proofs.Load.Handover
import ImportMeter.Proofs.Load.Members
import ImportMeter.Proofs.Location
import ImportMeter.Proofs.Package.Exclusion
import ImportMeter.Proofs.Package.Relocation
import ImportMeter.Proofs.Package.Root
import ImportMeter.Proofs.Package.Search
import ImportMeter.Proofs.Path
import ImportMeter.Proofs.Path.Below
import ImportMeter.Proofs.Path.Bytes
import ImportMeter.Proofs.Path.Normal
import ImportMeter.Proofs.Path.Parent
import ImportMeter.Proofs.Run.Collection
import ImportMeter.Proofs.Run.Confinement
import ImportMeter.Proofs.Run.Ignoring
import ImportMeter.Proofs.Run.Prediction
import ImportMeter.Proofs.Script.Child
import ImportMeter.Proofs.Script.Cursor
import ImportMeter.Proofs.Script.Depth
import ImportMeter.Proofs.Script.Derivation
import ImportMeter.Proofs.Script.ExportStatement
import ImportMeter.Proofs.Script.Exported
import ImportMeter.Proofs.Script.Following
import ImportMeter.Proofs.Script.Gap
import ImportMeter.Proofs.Script.Identifier
import ImportMeter.Proofs.Script.Literal
import ImportMeter.Proofs.Script.Quoted
import ImportMeter.Proofs.Script.Reading
import ImportMeter.Proofs.Script.Rewriting
import ImportMeter.Proofs.Script.RuleShape
import ImportMeter.Proofs.Script.Separation
import ImportMeter.Proofs.Script.Shape
import ImportMeter.Proofs.Script.Slicing
import ImportMeter.Proofs.Script.Statement
import ImportMeter.Proofs.Script.Tree
import ImportMeter.Proofs.Script.Walk
import ImportMeter.Proofs.Specifier
import ImportMeter.Proofs.Text
import ImportMeter.Proofs.Text.Encoding
import ImportMeter.Proofs.Text.Escape
import ImportMeter.Proofs.Text.Offset
import ImportMeter.Proofs.Text.Percent
import ImportMeter.Proofs.Text.Utf16
import ImportMeter.Proofs.Text.Utf8
import ImportMeter.Proofs.Timing.Records
import ImportMeter.Proofs.Timing.Sharing
import ImportMeter.Proofs.Timing.Total
import ImportMeter.Script.Call
import ImportMeter.Script.Character
import ImportMeter.Script.Export
import ImportMeter.Script.Gap
import ImportMeter.Script.Grammar
import ImportMeter.Script.Grammar.Expressions
import ImportMeter.Script.Grammar.Functions
import ImportMeter.Script.Grammar.Markup
import ImportMeter.Script.Grammar.Modules
import ImportMeter.Script.Grammar.Statements
import ImportMeter.Script.Grammar.Symbol
import ImportMeter.Script.Import
import ImportMeter.Script.Kind
import ImportMeter.Script.Lexeme
import ImportMeter.Script.Literal
import ImportMeter.Script.Place
import ImportMeter.Script.Rule
import ImportMeter.Script.Tree
import ImportMeter.Script.Word
import ImportMeter.Specifier
import ImportMeter.Text.Basic
import ImportMeter.Text.Percent
import ImportMeter.Text.Quoted
import ImportMeter.Text.Utf8
import ImportMeter.Timing.LoadTimer
import ImportMeter.Timing.Teardown
import ImportMeter.Timing.TotalTimer
import ImportMeter.Toml.Lexeme
import ImportMeter.Toml.Reader
import ImportMeter.Toml.Table
