/-
This file adds instrumentation: every import of a literal path becomes a marked call of the entry
point, and the file comes to import the entry point.
-/
import ImportMeter.Instrument.Basic

namespace ImportMeter.Instrument

open Script

/-- The declaration that imports the entry point into a file in a directory. -/
def importDeclaration (instrumentation : Instrumentation) (directory : Path) : Text :=
  "import ".toList ++ instrumentation.entryName ++ " from '".toList ++
    instrumentation.modulePath.importSpecifier directory ++ "';\n".toList

/-- Puts the declaration in front of the first statement, or at the end of a file that has none. -/
def insertDeclaration (source : Text) (tree : Tree) (declaration : Text) : Edit :=
  match firstStatementStart? tree with
  | some start => .insert start declaration
  | none =>
    if source = [] || source.getLast? = some '\n' then .insert source.length declaration
    else .insert source.length ('\n' :: declaration)

/-- What becomes of one dynamic import. -/
inductive Decision where
  /-- The entry point is already called with it. -/
  | guarded
  | rewritten (edit : Edit)
  | skipped (diagnostic : Diagnostic)

/-- The marked call in the place of an import. What stands around the path between the parentheses is
carried over. -/
def markedCall (source : Text) (localName marker : Text) (dynamicImport : DynamicImport)
    (path : Place) : Text :=
  let around := match dynamicImport.arguments with
    | some list =>
      (source.slice (list.start + 1) path.stop, source.slice path.stop (list.stop - 1))
    | none => (path.text, [])
  localName ++ '(' :: around.1 ++ ", import.meta.url, null, '".toList ++ marker ++
    '\x27' :: around.2 ++ [')']

def skipMessage (dynamicImport : DynamicImport) (reason : String) : Text :=
  "Skipping dynamic import: ".toList ++ reason.toList ++ ". Source: ".toList ++
    dynamicImport.call.text

def skip (source : Text) (dynamicImport : DynamicImport) (reason : String) : Decision :=
  let (line, column) := lineAndColumn source dynamicImport.call.start
  .skipped ⟨line, column, skipMessage dynamicImport reason⟩

/-- Decides on one dynamic import: only a plain string as the only argument is rewritten. -/
def decide (source : Text) (localName marker : Text) (guards : List Text)
    (dynamicImport : DynamicImport) : Decision :=
  if isArgumentOfCall dynamicImport.outer guards then .guarded
  else match dynamicImport.source with
    | none => skip source dynamicImport "source is not a string literal (type: undefined)"
    | some path =>
      if (stringValue? path.focus).isNone then
        skip source dynamicImport
          ("source is not a string literal (type: " ++ path.kind.name ++ ")")
      else if dynamicImport.argumentCount > 1 then
        skip source dynamicImport
          (toString dynamicImport.argumentCount ++ " arguments passed to import()")
      else .rewritten ⟨dynamicImport.call.range, markedCall source localName marker dynamicImport path⟩

def Decision.edit? : Decision → Option Edit
  | .rewritten edit => some edit
  | _ => none

def Decision.diagnostic? : Decision → Option Diagnostic
  | .skipped diagnostic => some diagnostic
  | _ => none

/-- Adds instrumentation to a script whose tree is known. -/
def injectTree (source : Text) (tree : Tree) (directory : Path)
    (instrumentation : Instrumentation) : Outcome :=
  let binding := findBinding? tree directory instrumentation.modulePath
  let (localName, guards) := instrumentation.localNames binding
  let declaration := match binding with
    | some _ => []
    | none => [insertDeclaration source tree (importDeclaration instrumentation directory)]
  let decisions := (dynamicImports tree).map
    (decide source localName instrumentation.marker guards)
  let edits := decisions.filterMap Decision.edit?
  let text :=
    if edits.isEmpty && declaration.isEmpty then none
    else some (Edit.applyAll source (declaration ++ edits))
  ⟨text, edits.length, !declaration.isEmpty, false, decisions.filterMap Decision.diagnostic?, none⟩

/-- Adds instrumentation to a script that a parser can read. -/
def injectBy? (parse? : Text → Option Tree) (workingDirectory : Path) (source : Text) (file : Path)
    (instrumentation : Instrumentation) : Option Outcome :=
  (parse? source).map fun tree =>
    injectTree source tree (directoryOf workingDirectory file) instrumentation

/-- Adds instrumentation to a script, or `none` if the text is not one. -/
def inject? (workingDirectory : Path) (source : Text) (file : Path)
    (instrumentation : Instrumentation) : Option Outcome :=
  injectBy? parse? workingDirectory source file instrumentation

end ImportMeter.Instrument
