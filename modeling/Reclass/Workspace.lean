import Reclass.Renaming.File
import Reclass.ModuleTree
import Reclass.Project

/-!
# Workspaces

What the files of one run share. The renaming table is read from disk when it is first needed, and
once it has been read it stays; there is one module tree for each module. A call that fails leaves
the workspace as it was, so it is tried again the next time.
-/

namespace Reclass

/-- The state of a run. -/
structure Workspace where
  settings : Settings
  project : Project
  /-- The renaming table, once it has been read. -/
  table : Option RenamingTable := none
  /-- The module trees that have been asked for, each with its module. -/
  trees : List (String × ModuleTree) := []
  deriving DecidableEq, Repr

namespace Workspace

/-- The workspace at the start of a run. -/
def start (disk : Disk) (settings : Settings) : Workspace where
  settings := settings
  project := .load disk settings.projectRoot

/-- Asks for the renaming table of the run. The answer comes with the workspace after the call, also
when the table cannot be read. -/
def fetchTable (workspace : Workspace) (disk : Disk) :
    Except SetupError RenamingTable × Workspace :=
  match workspace.table with
  | some table => (.ok table, workspace)
  | none =>
    match RenamingTable.load disk workspace.settings.renamingPath with
    | .error error => (.error error, workspace)
    | .ok table => (.ok table, { workspace with table := some table })

/-- Asks for the module tree of a module. The answer comes with the workspace after the call, also
when there is no tree. -/
def fetchTree (workspace : Workspace) (disk : Disk) (module : String) :
    Except SetupError ModuleTree × Workspace :=
  match workspace.trees.lookup module with
  | some tree => (.ok tree, workspace)
  | none =>
    match workspace.fetchTable disk with
    | (.error error, workspace) => (.error error, workspace)
    | (.ok table, workspace) =>
      let tree : ModuleTree := {
        root := workspace.project.scriptRoot module
        renamings := table
        basePackage := workspace.settings.basePackage
        style := workspace.settings.style }
      (.ok tree, { workspace with trees := (module, tree) :: workspace.trees })

/-- The renaming table of the run, for a caller who goes on only when there is one. -/
def renamings (workspace : Workspace) (disk : Disk) :
    Except SetupError (RenamingTable × Workspace) :=
  let (answer, workspace) := workspace.fetchTable disk
  answer.map (·, workspace)

/-- The module tree of a module, for a caller who goes on only when there is one. -/
def tree (workspace : Workspace) (disk : Disk) (module : String) :
    Except SetupError (ModuleTree × Workspace) :=
  let (answer, workspace) := workspace.fetchTree disk module
  answer.map (·, workspace)

/-- The directory of the registrations of a module. -/
def scanRoot (workspace : Workspace) (module : String) : Path :=
  (workspace.project.scriptRoot module).join workspace.settings.scanDirectory

end Workspace

end Reclass
