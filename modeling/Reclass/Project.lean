import Reclass.Disk
import Reclass.Json

/-!
# Projects

Where the modules of a project keep their scripts. One module may be named as the default one; it
and the module without a name live in the project itself, two modules of the framework have places
of their own, and all others have a directory under `modules`.
-/

namespace Reclass

/-- A project directory and the name of its default module, which may be empty. -/
structure Project where
  root : Path
  defaultModule : String
  deriving DecidableEq, Repr

namespace Project

/-- The field of a record with a single field, when it is there and not null. The outer option is
none when the value is no such record. -/
def field? (name : String) (json : Json) : Option (Option Json) := do
  match ← json.record? [name] with
  | [some .null] => return none
  | [value] => return value
  | _ => none

/-- The default module that the text of a modules file names. A text that is not as it should be
names none, and so does one without the fields. -/
def defaultModuleOf? (text : String) : Option String := do
  let some outer ← field? "default" (← Json.parse? text) | none
  let some inner ← field? "default" outer | none
  let some directory ← field? "dir" inner | none
  directory.asString?

/-- The modules file of a project. -/
def modulesFile (root : Path) : Path := root / "config/modules.json"

/-- The project in a directory, as far as the disk tells. Without a modules file that can be read,
no module is named as the default one. -/
def load (disk : Disk) (root : Path) : Project where
  root := root
  defaultModule :=
    match disk.readText (modulesFile root) with
    | .ok text => (defaultModuleOf? text).getD ""
    | .error _ => ""

/-- Whether a name stands for the default module. -/
def isDefault (project : Project) (module : String) : Bool :=
  module.isEmpty || module == "default" ||
    (!project.defaultModule.isEmpty && module == project.defaultModule)

/-- The directory of the scripts of a module, as seen from the project. -/
def modulePath (project : Project) (module : String) : Path :=
  if project.isDefault module then ⟨"web/js"⟩
  else if module = "ngs" then ⟨"vendor/naghashyan/ngs-php-framework/src/web/js"⟩
  else if module = "ngs-cms" then ⟨"vendor/naghashyan/ngs-php-cms/src/web/js"⟩
  else (⟨"modules"⟩ : Path) / module / "web/js"

/-- The directory of the scripts of a module. -/
def scriptRoot (project : Project) (module : String) : Path :=
  project.root.join (project.modulePath module)

end Project

end Reclass
