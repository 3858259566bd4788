import Reclass.Path

/-!
# Disks

A file system as a value: directories, files and symbolic links, each at its location. Paths are
resolved step by step, links are followed on the way, and at most forty of them. What a path stands
for, and what is read there, are functions of the disk.
-/

namespace Reclass

/-- The bytes of a file. Bytes that are UTF-8 are kept as the text that they spell. -/
inductive Content where
  | text (s : String)
  | binary (bytes : List UInt8)
  deriving DecidableEq, Repr

namespace Content

/-- The content that some bytes are. -/
def ofBytes (bytes : ByteArray) : Content :=
  match String.fromUTF8? bytes with
  | some s => .text s
  | none => .binary bytes.toList

/-- The bytes of a content. -/
def toBytes : Content → ByteArray
  | .text s => s.toUTF8
  | .binary bytes => ⟨bytes.toArray⟩

end Content

/-- What is found at a location. -/
inductive Node where
  | directory
  | file (content : Content)
  /-- A symbolic link, with the path that it stands for. -/
  | link (target : Path)
  deriving DecidableEq, Repr

/-- The names that lead to a place, the last one first. The root has none. -/
abbrev Location := List String

/-- Why a file cannot be read or written. -/
inductive IoFault where
  | notFound
  | notADirectory
  | isADirectory
  | tooManyLinks
  | notUtf8
  | permissionDenied
  | noSpace
  /-- Whatever else a machine refuses, in its own words. -/
  | refused (reason : String)
  deriving DecidableEq, Repr

/-- The wording of each fault. -/
def IoFault.message : IoFault → String
  | .notFound => "No such file or directory (os error 2)"
  | .notADirectory => "Not a directory (os error 20)"
  | .isADirectory => "Is a directory (os error 21)"
  | .tooManyLinks => "Too many levels of symbolic links (os error 40)"
  | .notUtf8 => "stream did not contain valid UTF-8"
  | .permissionDenied => "Permission denied (os error 13)"
  | .noSpace => "No space left on device (os error 28)"
  | .refused reason => reason

/-- A file system, and the directory at which relative paths start. -/
structure Disk where
  workingDirectory : Location
  entries : List (Location × Node)
  deriving DecidableEq, Repr

/-- Where a path leads, after all links. Behind its last name there may be nothing yet. A slash at
the end asks for a directory. -/
structure Destination where
  location : Location
  node : Option Node
  asDirectory : Bool
  deriving DecidableEq, Repr

/-- The most links that are followed on the way along one path. -/
def maxLinks : Nat := 40

/-- The names in a path. An empty one at the end stands for a slash there. -/
def Path.steps (path : Path) : List String :=
  let parts := Text.fields '/' path.text.toList
  (parts.filter (· ≠ [])).map String.ofList ++
    if parts.length > 1 ∧ parts.getLast? = some [] then [""] else []

namespace Disk

/-- What is at a location. The root is always a directory. -/
def node? (disk : Disk) : Location → Option Node
  | [] => some .directory
  | location => disk.entries.lookup location

/-- A disk with something else, or something new, at a location. -/
def put (disk : Disk) (location : Location) (node : Node) : Disk :=
  { disk with entries := (location, node) :: disk.entries.filter (·.1 ≠ location) }

/-- A disk with nothing at a location. -/
def erase (disk : Disk) (location : Location) : Disk :=
  { disk with entries := disk.entries.filter (·.1 ≠ location) }

/-- Goes along some names from a location up to the first link, which is handed to `follow`. -/
def walkWith (disk : Disk) (follow : Location → List String → Except IoFault Destination)
    (location : Location) : List String → Except IoFault Destination
  | [] => .ok ⟨location, disk.node? location, false⟩
  | name :: rest =>
    if name = "" then
      if rest = [] then .ok ⟨location, disk.node? location, true⟩
      else walkWith disk follow location rest
    else if disk.node? location ≠ some .directory then .error .notADirectory
    else if name = "." then walkWith disk follow location rest
    else if name = ".." then walkWith disk follow location.tail rest
    else match disk.node? (name :: location) with
      | some (.link target) =>
        follow (if target.isAbsolute then [] else location) (target.steps ++ rest)
      | some _ => walkWith disk follow (name :: location) rest
      | none =>
        if rest = [] then .ok ⟨name :: location, none, false⟩
        else if rest = [""] then .ok ⟨name :: location, none, true⟩
        else .error .notFound

/-- Goes along some names from a location; `links` links may be followed. -/
def walk (disk : Disk) : Nat → Location → List String → Except IoFault Destination
  | 0 => walkWith disk fun _ _ => .error .tooManyLinks
  | links + 1 => walkWith disk (walk disk links)

/-- Where a path leads. -/
def locate (disk : Disk) (path : Path) : Except IoFault Destination :=
  if path.text.isEmpty then .error .notFound
  else walk disk maxLinks (if path.isAbsolute then [] else disk.workingDirectory) path.steps

/-- The location that a path stands for, and what is there. -/
def resolve (disk : Disk) (path : Path) : Except IoFault (Location × Node) := do
  let destination ← disk.locate path
  match destination.node with
  | none => throw .notFound
  | some .directory => return (destination.location, .directory)
  | some node =>
    if destination.asDirectory then throw .notADirectory else return (destination.location, node)

/-- Whether a path leads to a directory. -/
def isDirectory (disk : Disk) (path : Path) : Bool :=
  match disk.resolve path with
  | .ok (_, .directory) => true
  | _ => false

/-- The absolute path of a location. -/
def pathOf (location : Location) : Path := ⟨"/" ++ "/".intercalate location.reverse⟩

/-- The absolute path, without links, of the place that a path leads to. -/
def canonical? (disk : Disk) (path : Path) : Option Path :=
  match disk.resolve path with
  | .ok (location, _) => some (pathOf location)
  | .error _ => none

/-- The bytes of a file. -/
def read (disk : Disk) (path : Path) : Except IoFault Content := do
  match ← disk.resolve path with
  | (_, .file content) => return content
  | _ => throw .isADirectory

/-- The text of a file. -/
def readText (disk : Disk) (path : Path) : Except IoFault String := do
  match ← disk.read path with
  | .text s => return s
  | .binary _ => throw .notUtf8

/-- The location of the file that opening a path for writing empties or creates. -/
def writeLocation (disk : Disk) (path : Path) : Except IoFault Location := do
  let destination ← disk.locate path
  if destination.asDirectory ∨ destination.node = some .directory then throw .isADirectory
  return destination.location

/-- The names in a directory, in the order of their code points. -/
def children (disk : Disk) (location : Location) : List String :=
  let names := disk.entries.filterMap fun entry =>
    match entry.1 with
    | name :: directory => if directory = location then some name else none
    | [] => none
  names.mergeSort fun a b => !(b < a)

/-- A disk with directories at a location and at all places above it where nothing is yet. -/
def makeDirectories (disk : Disk) : Location → Disk
  | [] => disk
  | name :: rest =>
    let disk := makeDirectories disk rest
    if (disk.node? (name :: rest)).isSome then disk else disk.put (name :: rest) .directory

/-- A disk with something at a location, and the directories above it. -/
def add (disk : Disk) (location : Location) (node : Node) : Disk :=
  (disk.makeDirectories location.tail).put location node

end Disk

end Reclass
