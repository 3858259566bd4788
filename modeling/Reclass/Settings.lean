import Reclass.ClassModule
import Reclass.Path

/-!
# Settings

The settings of a run, with what they are when nothing is said.
-/

namespace Reclass

/-- The settings of a run. -/
structure Settings where
  projectRoot : Path := ⟨"."⟩
  /-- The renaming file, as seen from the project. -/
  renamingFile : Option Path := none
  /-- The directory of the registrations, as seen from the scripts of a module. -/
  scanDirectory : Path := ⟨"loads/registration"⟩
  /-- The package of the base classes. -/
  basePackage : String := "ngs"
  style : ModuleStyle := {}
  deriving DecidableEq, Repr

/-- The renaming file of a run. -/
def Settings.renamingPath (settings : Settings) : Path :=
  settings.projectRoot.join (settings.renamingFile.getD ⟨"convert.config.json"⟩)

end Reclass
