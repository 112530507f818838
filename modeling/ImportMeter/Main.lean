/-
This file is the command line. It takes a picture of the files around the working directory, runs the
program on it, prints what the program says and writes the files that it changed.
-/
import ImportMeter.Command.Program
import ImportMeter.FileTree.Build
import Std.Data.HashMap

namespace ImportMeter

instance : Hashable Text where
  hash letters := hash (String.ofList letters)

/-- The bytes of the files in a picture, by location. -/
abbrev Picture := Std.HashMap Location ByteArray

/-- Looks at what stands at a path and below it. Other things than files, directories and links are
passed over. -/
partial def look (location : Location) (path : String) (picture : Picture) :
    IO (Option Node × Picture) := do
  try
    let entries ← (← IO.FS.realPath path).readDir
    let mut nodes : List (Text × Node) := []
    let mut picture := picture
    for entry in entries do
      let name := entry.fileName.toList
      let kind := (← entry.path.symlinkMetadata).type
      let inside := path ++ "/" ++ entry.fileName
      if kind == .symlink then
        let target ← try pure (some (← IO.FS.realPath inside).toString) catch _ => pure none
        nodes := Node.putEntry name (.link (.ofString (target.getD "nowhere"))) nodes
      else
        let (node, seen) ← look (location ++ [name]) inside picture
        picture := seen
        nodes := (node.map fun node => Node.putEntry name node nodes).getD nodes
    return (some (.directory nodes), picture)
  catch _ =>
    try
      let bytes ← IO.FS.readBinFile path
      return (some .file, picture.insert location bytes)
    catch _ => return (none, picture)

/-- The file in a picture at a location; one that could not be read is not readable. -/
def Picture.file (picture : Picture) (location : Location) : File :=
  match picture[location]? with
  | some bytes => ⟨Content.ofBytes bytes.toList, true, true⟩
  | none => ⟨.text [], false, false⟩

/-- The paths to look at: the given ones, and what is searched for in the directories above the working
directory. -/
def pathsOfInterest (workingDirectory : Path) (arguments : List Text) : List Path :=
  let above := workingDirectory.ancestors.flatMap fun directory =>
    [directory.join ⟨Manifest.fileName⟩, directory.join Configuration.fileName,
      directory.join Loader.packagesName]
  let named := arguments.map fun argument => (workingDirectory.join ⟨argument⟩).normalize
  workingDirectory :: above ++ named

/-- The highest directory at or above the working directory that holds a manifest. -/
def highestRoot (workingDirectory : Path) : IO Path := do
  let mut highest := workingDirectory
  for directory in workingDirectory.ancestors do
    let manifest := (directory.join ⟨Manifest.fileName⟩).toString
    let found ← try pure (some (← IO.FS.readBinFile manifest)) catch _ => pure none
    if found.isSome && directory.parent?.isSome then highest := directory
  return highest

/-- A picture of the files that the program may look at. -/
def takePicture (workingDirectory : Path) (arguments : List Text) : IO FileTree := do
  let mut tree := { FileTree.empty with workingDirectory := workingDirectory }
  let mut picture : Picture := {}
  let root ← highestRoot workingDirectory
  for path in root :: pathsOfInterest workingDirectory arguments do
    let location := FileTree.locationOf path
    if (tree.root.at? location).isNone then
      let (node, seen) ← look location path.toString picture
      picture := seen
      match node with
      | some node => tree := { tree with root := Node.put node location tree.root }
      | none => pure ()
  return { tree with file := picture.file }

/-- The line about an event. -/
def Event.line (event : Event) : Text :=
  let fields := event.fields.flatMap fun field => ' ' :: field.1.toList ++ '=' :: field.2
  event.level.name.toList ++ ' ' :: event.target.toList ++ ':' :: ' ' :: event.message ++ fields

/-- Writes the files that the program has changed. -/
def writeChanges (ending : Program.Ending) : IO Unit := do
  for path in ending.written do
    match ending.tree.readText path with
    | .ok text =>
      IO.FS.writeFile (ending.tree.workingDirectory.join path).toString (String.ofList text)
    | .error _ => pure ()

end ImportMeter

open ImportMeter in
def main (arguments : List String) : IO UInt32 := do
  let given := arguments.map String.toList
  let workingDirectory := Path.ofString (← IO.currentDir).toString
  let tree ← takePicture workingDirectory given
  let start ← IO.monoNanosNow
  let trial := Program.run tree 0 given
  let length := trial.output.length
  let stop ← IO.monoNanosNow
  let ending := if length = 0 then trial else Program.run tree (stop - start) given
  let asked := if given.any (· = "--debug".toList) then Level.debug else Level.warn
  let errors ← IO.getStderr
  for event in ending.events do
    if asked.shows event.level then errors.putStrLn (String.ofList event.line)
  errors.putStr (String.ofList ending.complaints)
  IO.print (String.ofList ending.output)
  writeChanges ending
  return ending.code.toUInt32
