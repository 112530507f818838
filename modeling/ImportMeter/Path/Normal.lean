/-
This file folds dots out of paths and writes one path relative to another. Nothing here looks at
what exists.
-/
import ImportMeter.Path.Basic

namespace ImportMeter.Path

/-- Adds a component to the components read before, the last of which comes first. Going up from a
name removes it, going up from the root stays there. -/
def push (read : List Component) : Component → List Component
  | .current => read
  | .parent =>
    match read with
    | .normal _ :: rest => rest
    | .root :: rest => .root :: rest
    | read => .parent :: read
  | component => component :: read

/-- The components of a path without dots. -/
def normalComponents (path : Path) : List Component :=
  (path.components.foldl push []).reverse

/-- The path made of some components; a lone dot if there is none. -/
def ofComponents : List Component → Path
  | [] => ⟨['.']⟩
  | .root :: rest => ⟨'/' :: Text.joinWith ['/'] (rest.map Component.letters)⟩
  | components => ⟨Text.joinWith ['/'] (components.map Component.letters)⟩

/-- The path with `.` and `..` folded. `..` never climbs above a root. -/
def normalize (path : Path) : Path := ofComponents path.normalComponents

/-- The path made absolute against the working directory, then normalized. -/
def absolutize (path workingDirectory : Path) : Path :=
  if path.isAbsolute then path.normalize else (workingDirectory.join path).normalize

/-- The components of two lists that are left behind their common front. -/
def dropCommon : List Component → List Component → List Component × List Component
  | first :: firsts, second :: seconds =>
    if first = second then dropCommon firsts seconds else (first :: firsts, second :: seconds)
  | firsts, seconds => (firsts, seconds)

/-- The components that lead down to a path from what it has in common with a directory. -/
def downFrom (path directory : Path) : List Component :=
  (dropCommon directory.normalize.components path.normalize.components).2

/-- A path as seen from another, which stands for a directory, with its components as they are spelled
in text. -/
def relativeBy (spell : Text → Text) (path directory : Path) : Text :=
  let up := (dropCommon directory.normalize.components path.normalize.components).1
  Text.joinWith ['/'] (
    (up.filter fun component => component ≠ .root && component ≠ .current).map
      (fun _ => ['.', '.']) ++
    (path.downFrom directory).map fun component => spell component.letters)

/-- The relative path in the form of an import specifier, which begins with `./` or `../`. -/
def specifierBy (spell : Text → Text) (path directory : Path) : Text :=
  let relative := path.relativeBy spell directory
  if Text.startsWith relative ['.', '.', '/'] || Text.startsWith relative ['.', '/'] then relative
  else ['.', '/'] ++ relative

/-- The relative path of a path of text, which is spelled as it is. -/
def relativeTo (path directory : Path) : Text := path.relativeBy id directory

/-- The import specifier of a path of text. -/
def importSpecifier (path directory : Path) : Text := path.specifierBy id directory

end ImportMeter.Path
