/-
This file reads the import declarations of a script and finds where a new one goes.
-/
import ImportMeter.Script.Literal
import ImportMeter.Path.Normal

namespace ImportMeter.Script

/-- An import declaration at the top level. -/
structure ImportBinding where
  statement : Place
  source : Text
  /-- The local name of the default import. -/
  defaultLocal : Option Text
  /-- How many names the declaration binds. -/
  specifierCount : Nat

namespace ImportBinding

/-- How many names one part of an import clause binds. -/
def countOf (part : Tree) : Nat :=
  match part.kind with
  | .identifier | .namespaceImport => 1
  | .namedImports => (part.children.filter (·.kind = .importSpecifier)).length
  | _ => 0

def ofPlace? (place : Place) : Option ImportBinding :=
  if place.kind = .importStatement then
    ((place.child? .source).bind fun source => stringValue? source.focus).map fun source =>
      let parts := ((place.children.find? (·.kind = .importClause)).map (·.focus.children)).getD []
      ⟨place, source, ((parts.filter (·.kind = .identifier)).getLast?).map Tree.text,
        (parts.map countOf).foldr (· + ·) 0⟩
  else none

/-- True if the source, seen from a directory, is the target. -/
def resolvesTo (binding : ImportBinding) (directory target : Path) : Bool :=
  (directory.join ⟨binding.source⟩).normalize = target.normalize

/-- True if the default import is all that the declaration binds. -/
def isSoleDefault (binding : ImportBinding) : Bool :=
  binding.specifierCount = 1 && binding.defaultLocal.isSome

end ImportBinding

/-- The import declarations of a script. -/
def importsOf (tree : Tree) : List ImportBinding :=
  (Place.top tree).namedChildren.filterMap ImportBinding.ofPlace?

/-- The first declaration that imports the target by default. -/
def findBinding? (tree : Tree) (directory target : Path) : Option ImportBinding :=
  (importsOf tree).find? fun binding =>
    binding.defaultLocal.isSome && binding.resolvesTo directory target

/-- Where the first statement starts, behind a line for the system and comments. -/
def firstStatementStart? (tree : Tree) : Option Nat :=
  ((Place.top tree).namedChildren.find? fun place =>
    place.kind ≠ .comment && place.kind ≠ .hashBangLine).map Place.start

end ImportMeter.Script
