/-
This file lists what a script exports.
-/
import ImportMeter.Script.Literal

namespace ImportMeter.Script

/-- An exported name and the source text that defines it. -/
structure Export where
  name : Text
  body : Text

/-- The names that a declaration gives; a pattern gives none. -/
def declaredNames (declaration : Tree) : List Text :=
  match declaration.kind with
  | .lexicalDeclaration | .variableDeclaration =>
    (declaration.children.filter (·.kind = .variableDeclarator)).filterMap fun declarator =>
      ((declarator.child? .name).filter (·.kind = .identifier)).map Tree.text
  | _ => ((declaration.child? .name).map Tree.text).toList

/-- The name under which a specifier exports: its alias if it has one. -/
def exportedName? (specifier : Tree) : Option Text :=
  (specifier.child? .alias <|> specifier.child? .name).map fun name =>
    (stringValue? name).getD name.text

def isDefaultWord : Tree → Bool
  | .leaf _ .mark ['d', 'e', 'f', 'a', 'u', 'l', 't'] => true
  | _ => false

/-- What one export declaration exports. -/
def exportsOfStatement (statement : Tree) : List Export :=
  let declaration := statement.child? .declaration
  if statement.children.any isDefaultWord then
    [⟨['d', 'e', 'f', 'a', 'u', 'l', 't'],
      ((declaration <|> statement.child? .value).map Tree.text).getD []⟩]
  else match declaration with
    | some declaration => (declaredNames declaration).map fun name => ⟨name, declaration.text⟩
    | none =>
      match statement.children.find? (·.kind = .exportClause) with
      | some clause =>
        (clause.children.filter (·.kind = .exportSpecifier)).filterMap fun specifier =>
          (exportedName? specifier).map fun name => ⟨name, specifier.text⟩
      | none => []

/-- All exports of a script in source order, repeated names included. -/
def exportsOf (tree : Tree) : List Export :=
  (tree.children.filter (·.kind = .exportStatement)).flatMap exportsOfStatement

end ImportMeter.Script
