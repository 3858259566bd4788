import Reclass.Renaming
import Reclass.Disk
import Reclass.Json

/-!
# Renaming files

The renaming table of a project is a JSON array of records. A project without the file has no
renamings; a file that cannot be read, or that holds anything else, is an error.
-/

namespace Reclass

/-- Why the renamings of a project are not known. A table of any size can be searched for, so there
is no case for one with too many names. -/
inductive SetupError where
  /-- The file cannot be read. -/
  | io (path : Path) (fault : IoFault)
  /-- The file does not hold a table. -/
  | json (path : Path)
  deriving DecidableEq, Repr

/-- The wording of each error. -/
def SetupError.message : SetupError → String
  | .io path fault => "Failed to read " ++ path.text ++ ": " ++ fault.message
  | .json path => "Invalid JSON in " ++ path.text

/-- Reads one renaming, of which all three fields have to be there. -/
def Renaming.ofJson? (json : Json) : Option Renaming := do
  match ← json.record? ["old_name", "name", "path"] with
  | [some oldName, some name, some path] =>
    return ⟨← oldName.asString?, ← name.asString?, ← path.asString?⟩
  | _ => none

namespace RenamingTable

/-- Reads a table from the text of a renaming file. -/
def parse? (text : String) : Option RenamingTable := do
  let items ← (← Json.parse? text).asArray?
  return ⟨← items.mapM Renaming.ofJson?⟩

/-- Reads the table from a file; without the file it is empty. -/
def load (disk : Disk) (path : Path) : Except SetupError RenamingTable :=
  match disk.readText path with
  | .error .notFound => .ok empty
  | .error fault => .error (.io path fault)
  | .ok text =>
    match parse? text with
    | some table => .ok table
    | none => .error (.json path)

end RenamingTable

end Reclass
