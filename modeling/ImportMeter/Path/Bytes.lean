/-
This file defines paths as a file system keeps them: sequences of bytes, which need not be text. Only
slashes and dots matter to how a path is read, so bytes are read as letters, one for each. What is
written into a script is text: a name that is not UTF-8 is spelled with replacement characters there.
-/
import ImportMeter.Path.Normal
import ImportMeter.Text.Utf8

namespace ImportMeter

structure BytePath where
  bytes : List UInt8
  deriving DecidableEq

namespace BytePath

/-- The path with a letter for each byte. A slash and a dot stand for themselves. -/
def view (path : BytePath) : Path := ⟨path.bytes.map Char.ofUInt8⟩

def ofView (view : Path) : BytePath := ⟨view.letters.map Char.toUInt8⟩

/-- The path that a text spells. -/
def ofText (text : Text) : BytePath := ⟨text.toBytes⟩

def isAbsolute (path : BytePath) : Bool := path.view.isAbsolute

/-- Another path seen from this one, which stands for a directory. -/
def join (base path : BytePath) : BytePath := ofView (base.view.join path.view)

/-- The path with `.` and `..` folded. -/
def normalize (path : BytePath) : BytePath := ofView path.view.normalize

/-- The names that lead down to a path from what it has in common with a directory. -/
def namesFrom (path directory : BytePath) : List (List UInt8) :=
  (path.view.downFrom directory.view).map fun component => component.letters.map Char.toUInt8

/-- The text of a name, given by letters that stand for its bytes. -/
def spell (letters : Text) : Text := Text.ofBytesLossy (letters.map Char.toUInt8)

/-- A path as seen from another, which stands for a directory. -/
def relativeTo (path directory : BytePath) : Text := path.view.relativeBy spell directory.view

/-- The relative path in the form of an import specifier. -/
def importSpecifier (path directory : BytePath) : Text := path.view.specifierBy spell directory.view

end BytePath

end ImportMeter
