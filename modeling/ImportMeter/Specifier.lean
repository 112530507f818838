/-
This file tells module specifiers apart and resolves the relative ones. The shape of a specifier is
decided by how it begins; nothing is looked up.
-/
import ImportMeter.Path.Normal
import ImportMeter.Text.Percent

namespace ImportMeter

/-- The shapes of a module specifier. -/
inductive ModuleKind where
  /-- Begins with a dot. -/
  | relative
  /-- Begins with the scope of the workspace's packages. -/
  | workspace
  /-- Anything else. -/
  | bare
  deriving DecidableEq

namespace ModuleKind

/-- An empty scope is no scope. -/
def classify (specifier scope : Text) : ModuleKind :=
  if specifier.head? = some '.' then .relative
  else if scope ≠ [] && Text.startsWith specifier scope then .workspace
  else .bare

def name : ModuleKind → String
  | .relative => "relative"
  | .workspace => "workspace"
  | .bare => "bare"

end ModuleKind

namespace Specifier

/-- The scope of workspace packages where none is configured. -/
def defaultScope : Text := "@ktr-srt/".toList

def withoutQuery (text : Text) : Text :=
  text.takeWhile fun letter => letter ≠ '?' && letter ≠ '#'

def fileScheme : Text := ['f', 'i', 'l', 'e', ':', '/', '/']

def localHost : Text := ['l', 'o', 'c', 'a', 'l', 'h', 'o', 's', 't']

/-- The path that a file URL or a plain path names. A URL loses its query and its percent escapes;
another scheme or a foreign host names no path. -/
def locationPath? (location : Text) : Option Path :=
  match location.dropFront? fileScheme with
  | some rest =>
    let rest := withoutQuery ((rest.dropFront? localHost).getD rest)
    if rest.head? = some '/' then some ⟨rest.percentDecode⟩ else none
  | none => if location.contains [':', '/', '/'] then none else some ⟨location⟩

/-- The path of a module named relative to the importing file. -/
def resolveRelative? (specifier importer : Text) : Option Path :=
  (locationPath? importer).map fun path =>
    let base := path.parent?.getD ⟨['/']⟩
    (base.join ⟨(withoutQuery specifier).percentDecode⟩).normalize

/-- The directory of the importing file. -/
def importerDirectory? (importer : Text) : Option Path :=
  (locationPath? importer).bind Path.parent?

end Specifier

end ImportMeter
