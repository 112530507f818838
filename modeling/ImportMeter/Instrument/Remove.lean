/-
This file removes instrumentation: every marked call becomes an import of its first argument, and
the import of the entry point goes once nothing uses it.
-/
import ImportMeter.Instrument.Basic

namespace ImportMeter.Instrument

open Script

/-- The range of an unwrapped call and the range of the argument it keeps. -/
structure Unwrapped where
  call : Range
  kept : Range

/-- True if what stands in a range disappears when the call is unwrapped. -/
def Unwrapped.drops (unwrapped : Unwrapped) (range : Range) : Bool :=
  unwrapped.call.contains range && !unwrapped.kept.contains range

/-- From behind the opening parenthesis to the end of the path. -/
def keptRange (marked : MarkedCall) : Range :=
  ⟨marked.arguments.start + 1, marked.modulePath.stop⟩

/-- What stands between the marker and the closing parenthesis, unless more arguments do. -/
def trailOf (source : Text) (marked : MarkedCall) : Text :=
  if marked.argumentCount = 4 then
    source.slice marked.marker.stop (marked.arguments.stop - 1)
  else []

/-- The edits that unwrap calls so far and the calls unwrapped. -/
structure Unwrapping where
  edits : List Edit
  unwrapped : List Unwrapped

/-- Unwraps one more call, the calls inside it having been unwrapped before. -/
def unwrap (source : Text) (before : Unwrapping) (marked : MarkedCall) : Unwrapping :=
  let call := marked.call.range
  let kept := keptRange marked
  let text := "import(".toList ++ Edit.splice source kept before.edits ++
    trailOf source marked ++ [')']
  ⟨(before.edits.filter fun edit => !call.contains edit.range) ++ [⟨call, text⟩],
    before.unwrapped ++ [⟨call, kept⟩]⟩

def unwrapAll (source : Text) (calls : List MarkedCall) : Unwrapping :=
  calls.foldl (unwrap source) ⟨[], []⟩

def isReferenceKind (kind : Kind) : Bool :=
  kind = .identifier || kind = .shorthandPropertyIdentifier

/-- True if a name is used outside its declaration in what stays. -/
def isReferenced (tree : Tree) (name : Text) (declaration : Range) (unwrapped : List Unwrapped) :
    Bool :=
  (Place.preorder tree).any fun place =>
    isReferenceKind place.kind && place.text = name &&
      !declaration.contains place.range && !unwrapped.any (·.drops place.range)

def isSpace (letter : Char) : Bool := letter = ' ' || letter = '\t'

/-- Widens a statement's range to its line: blanks in front of it if the line begins with them, blanks
behind it, and the line end that follows. -/
def lineRange (source : Text) (statement : Range) : Range :=
  let front := ((source.take statement.start).reverse.takeWhile isSpace).length
  let start := statement.start - front
  let behind := ((source.drop statement.stop).takeWhile fun letter =>
    isSpace letter || letter = '\r').length
  let stop := statement.stop + behind
  ⟨if start = 0 || source[start - 1]? = some '\n' then start else statement.start,
    if source[stop]? = some '\n' then stop + 1 else stop⟩

/-- Removes instrumentation from a script whose tree is known. -/
def removeTree (source : Text) (tree : Tree) (directory : Path)
    (instrumentation : Instrumentation) : Outcome :=
  let binding := findBinding? tree directory instrumentation.modulePath
  let (localName, callees) := instrumentation.localNames binding
  let calls := markedCalls callees instrumentation.marker tree
  if calls.isEmpty then .unchanged
  else
    let unwrapping := unwrapAll source calls
    let sole := binding.filter ImportBinding.isSoleDefault
    let name := (sole.bind (·.defaultLocal)).getD localName
    let kept := sole.any fun binding =>
      isReferenced tree name binding.statement.range unwrapping.unwrapped
    let deletion := if kept then [] else sole.toList.map fun binding =>
      ⟨lineRange source binding.statement.range, []⟩
    ⟨some (Edit.applyAll source (unwrapping.edits ++ deletion)), calls.length, false,
      !deletion.isEmpty, [], if kept then some name else none⟩

/-- Removes instrumentation from a script that a parser can read. -/
def removeBy? (parse? : Text → Option Tree) (workingDirectory : Path) (source : Text) (file : Path)
    (instrumentation : Instrumentation) : Option Outcome :=
  (parse? source).map fun tree =>
    removeTree source tree (directoryOf workingDirectory file) instrumentation

/-- Removes instrumentation from a script, or `none` if the text is not one. -/
def remove? (workingDirectory : Path) (source : Text) (file : Path)
    (instrumentation : Instrumentation) : Option Outcome :=
  removeBy? parse? workingDirectory source file instrumentation

end ImportMeter.Instrument
