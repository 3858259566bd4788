import Reclass.Program

/-!
# The executable

The names of the files of a project are read from the standard input, one on each line and seen
from the working directory. These files are the disk on which the program runs; those that it has
changed are written afterwards.
-/

namespace Reclass

/-- The place of a file below the working directory, which stands for the root. -/
def Location.ofName (name : String) : Location :=
  ((Path.steps ⟨name⟩).filter fun step => step ≠ "" ∧ step ≠ ".").reverse

/-- The name of a place below the working directory. -/
def Location.name (location : Location) : String := "/".intercalate location.reverse

/-- The lines that are left on a stream, without their line feeds. -/
partial def readLines (input : IO.FS.Stream) : IO (List String) := do
  let line ← input.getLine
  if line.isEmpty then return []
  return (line.dropEndWhile (· == '\n')).toString :: (← readLines input)

/-- A disk with the files of these names. -/
def readDisk (names : List String) : IO Disk := do
  let mut disk : Disk := ⟨[], []⟩
  for name in names do
    disk := disk.add (Location.ofName name) (.file (.ofBytes (← IO.FS.readBinFile name)))
  return disk

/-- Writes the files of a disk that were different before. -/
def writeChanges (before after : Disk) : IO Unit := do
  for (location, node) in after.entries do
    match node with
    | .file content =>
      if before.node? location ≠ some node then
        IO.FS.writeBinFile (Location.name location) content.toBytes
    | _ => pure ()

end Reclass

/-- Runs the program on the listed files. -/
def main (arguments : List String) : IO UInt32 := do
  let names ← match Reclass.Request.ofArguments arguments with
    | .ok (.convert _) => Reclass.readLines (← IO.getStdin)
    | _ => pure []
  let disk ← Reclass.readDisk (names.filter fun name => !name.isEmpty)
  let outcome := Reclass.run arguments disk
  Reclass.writeChanges disk outcome.disk
  IO.print outcome.output
  for line in outcome.errors do
    IO.eprintln line
  return outcome.code
