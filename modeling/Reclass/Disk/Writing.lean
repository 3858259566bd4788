import Reclass.Disk

/-!
# Writing files

A file is copied by emptying the place of the copy and filling it, and replaced by a new file that
takes its place when it is complete. Whether this succeeds is more than a disk can tell: it depends
on permissions, on the space that is left, on hardware. So the machine below the disk is a
parameter, and may refuse each of the steps.
-/

namespace Reclass

/-- How a copy breaks off. -/
structure BrokenCopy where
  fault : IoFault
  /-- What the place of the copy holds by then, if it has been opened. -/
  left : Option Content := none
  deriving DecidableEq, Repr

/-- What a machine does when files are written. -/
structure Machine where
  /-- How it breaks off the copying of the file at a location to a place, if it does. -/
  breaksCopy? : Disk → Location → Location → Option BrokenCopy
  /-- Makes a new file beside the file at a location, writes a text to it, and gives it the
  permissions of that file. No path leads to the new file, and when a step is refused it is gone. -/
  prepare : Disk → Location → String → Except IoFault Unit
  /-- Moves a new file that holds a text to the place of the file at a location. The disk after it
  is there also when this is refused. -/
  persist : Disk → Location → String → Except IoFault Unit × Disk

/-- The machine that refuses nothing. -/
def Machine.willing : Machine where
  breaksCopy? _ _ _ := none
  prepare _ _ _ := .ok ()
  persist disk location text := (.ok (), disk.put location (.file (.text text)))

/-- Where the bytes of a file are kept: its name with `.backup` added to the extension. -/
def Path.backup (path : Path) : Path :=
  path.withExtension (path.extension?.getD "" ++ ".backup")

namespace Disk

/-- Copies the file at a location to a place. The place is emptied before anything is copied, so a
file that is copied onto itself loses its bytes. -/
def copyTo (disk : Disk) (machine : Machine) (location place : Location) :
    Except IoFault Unit × Disk :=
  match machine.breaksCopy? disk location place with
  | some ⟨fault, none⟩ => (.error fault, disk)
  | some ⟨fault, some content⟩ => (.error fault, disk.put place (.file content))
  | none =>
    let emptied := disk.put place (.file (.text ""))
    match emptied.node? location with
    | some (.file content) => (.ok (), emptied.put place (.file content))
    | _ => (.error .isADirectory, disk)

/-- Copies a file. The disk after it may differ also when the copying fails. -/
def copy (disk : Disk) (source destination : Path) (machine : Machine := .willing) :
    Except IoFault Unit × Disk :=
  match disk.resolve source, disk.writeLocation destination with
  | .error fault, _ => (.error fault, disk)
  | .ok _, .error fault => (.error fault, disk)
  | .ok (location, _), .ok place => disk.copyTo machine location place

/-- Replaces the file at a location by one with another text. -/
def replaceAt (disk : Disk) (machine : Machine) (location : Location) (text : String) :
    Except IoFault Unit × Disk :=
  match machine.prepare disk location text with
  | .error fault => (.error fault, disk)
  | .ok () => machine.persist disk location text

/-- Replaces the file that a path leads to by one with another text. A link stays a link. -/
def replace (disk : Disk) (path : Path) (text : String) (machine : Machine := .willing) :
    Except IoFault Unit × Disk :=
  match disk.resolve path with
  | .error fault => (.error fault, disk)
  | .ok (location, _) => disk.replaceAt machine location text

/-- Writes a result in place of a file, after a copy of the file if one is wanted. The disk after
it may differ also when the writing fails: the copy may be there, and the file as it was. -/
def writeResult (disk : Disk) (backup : Bool) (path : Path) (text : String)
    (machine : Machine := .willing) : Except IoFault Unit × Disk :=
  match if backup then disk.copy path path.backup machine else (.ok (), disk) with
  | (.error fault, disk) => (.error fault, disk)
  | (.ok (), disk) => disk.replace path text machine

end Disk

end Reclass
