/-
This file recognises the calls that matter to instrumentation: dynamic imports, and calls of the
entry point that carry the marker.
-/
import ImportMeter.Script.Literal

namespace ImportMeter.Script

/-- The parenthesized arguments of a call; a template is not one. -/
def argumentList? (call : Place) : Option Place :=
  (call.child? .arguments).filter (·.kind = .arguments)

/-- The arguments of a call, comments apart. -/
def argumentsOf (call : Place) : List Place :=
  match argumentList? call with
  | some list => list.namedChildren.filter (·.kind ≠ .comment)
  | none => []

/-- The name that is called, where what is called is just a name. -/
def calleeName? (call : Place) : Option Text :=
  ((call.child? .callee).filter (·.kind = .identifier)).map Place.text

/-- A call of `import`. -/
structure DynamicImport where
  call : Place
  /-- The parentheses and all that is in them. -/
  arguments : Option Place
  /-- The first argument. -/
  source : Option Place
  /-- How many arguments there are, comments not counted. -/
  argumentCount : Nat

namespace DynamicImport

def ofPlace? (place : Place) : Option DynamicImport :=
  if place.kind = .callExpression &&
      (place.child? .callee).any (·.kind = .importWord) then
    let given := argumentsOf place
    some ⟨place, argumentList? place, given.head?, given.length⟩
  else none

/-- The imported path, where it is a plain string. -/
def literal? (dynamicImport : DynamicImport) : Option Text :=
  dynamicImport.source.bind fun source => stringValue? source.focus

/-- The expression that awaits the import, or else the import itself. -/
def outer (dynamicImport : DynamicImport) : Place :=
  match dynamicImport.call.parent? with
  | some parent => if parent.kind = .awaitExpression then parent else dynamicImport.call
  | none => dynamicImport.call

end DynamicImport

/-- True if a place is an argument in a call of one of some names. -/
def isArgumentOfCall (place : Place) (callees : List Text) : Bool :=
  match place.parent? with
  | some list =>
    list.kind = .arguments && match list.parent? with
      | some call => call.kind = .callExpression && (calleeName? call).any callees.contains
      | none => false
  | none => false

/-- A call of the entry point whose fourth argument is the marker. -/
structure MarkedCall where
  call : Place
  callee : Place
  arguments : Place
  modulePath : Place
  marker : Place
  /-- How many arguments there are, comments not counted. -/
  argumentCount : Nat

namespace MarkedCall

def ofPlace? (callees : List Text) (marker : Text) (place : Place) : Option MarkedCall :=
  if place.kind = .callExpression && (calleeName? place).any callees.contains then
    match argumentsOf place with
    | modulePath :: second :: third :: fourth :: others =>
      if stringValue? fourth.focus = some marker then
        match place.child? .callee, argumentList? place with
        | some callee, some arguments =>
          some ⟨place, callee, arguments, modulePath, fourth,
            (modulePath :: second :: third :: fourth :: others).length⟩
        | _, _ => none
      else none
    | _ => none
  else none

end MarkedCall

/-- All dynamic imports of a script, parents before children. -/
def dynamicImports (tree : Tree) : List DynamicImport :=
  (Place.preorder tree).filterMap DynamicImport.ofPlace?

/-- All marked calls of a script, children before parents. -/
def markedCalls (callees : List Text) (marker : Text) (tree : Tree) : List MarkedCall :=
  (Place.postorder tree).filterMap (MarkedCall.ofPlace? callees marker)

end ImportMeter.Script
