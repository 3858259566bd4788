import Reclass.Renaming
import Reclass.Settings
import Reclass.Disk.Writing
import Reclass.Handler.Literal
import Reclass.Handler.Registration
import Reclass.Path.Relative

/-!
# Module trees

Below one root, source texts that register a handler become the texts of class modules. A text
without a registration is left alone. The disk is asked for one thing only: where a file and the
root of the modules really are, when their spelling alone does not show that the file is below the
root.
-/

namespace Reclass

/-- Why a file was not converted. -/
inductive FileError where
  /-- The text of the file is at fault, at some position. -/
  | malformed (path : Path) (position : Text.Position) (reason : String)
  /-- The file cannot be read or written. -/
  | io (path : Path) (fault : IoFault)
  /-- The file is not below the root of the modules, so it cannot import them. -/
  | outsideRoot (path root : Path)
  deriving DecidableEq, Repr

namespace FileError

/-- The wording of each error. -/
def message : FileError → String
  | .malformed path position reason =>
    "Malformed literal in " ++ path.text ++ ":" ++ toString position.line ++ ":" ++
      toString position.column ++ ": " ++ reason
  | .io path fault => "I/O error on " ++ path.text ++ ": " ++ fault.message
  | .outsideRoot path root => path.text ++ " is outside module root " ++ root.text

/-- The file that was not converted. -/
def path : FileError → Path
  | .malformed path _ _ => path
  | .io path _ => path
  | .outsideRoot path _ => path

/-- A reason at a byte offset of a source text. -/
def atOffset (path : Path) (source : String) (offset : Nat) (reason : String) : FileError :=
  .malformed path (.ofOffset source.toList offset) reason

/-- A syntax error of a source text. -/
def syntaxAt (path : Path) (source : String) (error : SyntaxError) : FileError :=
  .atOffset path source error.offset error.fault.message

end FileError

/-- A handler that has become a class. -/
structure ConvertedHandler where
  kind : HandlerKind
  identity : Identity
  parent : Identity
  /-- The text of the module. -/
  text : String
  deriving DecidableEq, Repr

/-- What a source text becomes. -/
inductive Conversion where
  /-- No handler is registered, and the text stays as it is. -/
  | unchanged
  | converted (handler : ConvertedHandler)
  deriving DecidableEq, Repr

/-- The modules below one root, and what they have in common. -/
structure ModuleTree where
  root : Path
  renamings : RenamingTable := .empty
  /-- The package of the base classes. -/
  basePackage : String := "ngs"
  style : ModuleStyle := {}
  deriving DecidableEq, Repr

namespace ModuleTree

/-- The import of a module by a file whose place and the root are looked up on disk. -/
def resolvedImport? (tree : ModuleTree) (disk : Disk) (path : Path) (target : String) :
    Option String := do
  let name ← path.fileName?
  let directory ← disk.canonical? path.directory
  let root ← disk.canonical? tree.root
  specifierFrom? (directory / name).components root.components target

/-- How a file imports the module `target` below the root. -/
def importSpecifier (tree : ModuleTree) (disk : Disk) (path : Path) (target : String) :
    Except FileError String :=
  match specifierFrom? path.components tree.root.components target with
  | some specifier => .ok specifier
  | none =>
    match tree.resolvedImport? disk path target with
    | some specifier => .ok specifier
    | none => .error (.outsideRoot path tree.root)

/-- The imports that the renamed texts of the members need. A name that the module binds anyway, to
its class or to the parent, is not imported again. -/
def renamingImports (tree : ModuleTree) (disk : Disk) (path : Path) (bound : List String)
    (members : List Member) : Except FileError (List ImportLine) :=
  ((tree.renamings.imports (members.flatMap Member.texts)).filter
    (·.name ∉ bound)).mapM fun entry => do
      return ⟨entry.name, ← tree.importSpecifier disk path entry.path⟩

/-- The class module that takes the place of a registration in a source text. -/
def classModule (tree : ModuleTree) (disk : Disk) (path : Path) (source : String)
    (call : Registration) : Except FileError ClassModule := do
  let members ← (Member.ofBody call.body).mapError (.syntaxAt path source)
  let identity ← (Identity.ofName call.name call.kind).mapError fun error =>
    .atOffset path source call.nameOffset error.message
  let parentOffset := (call.parent.map Prod.snd).getD call.closer.stop
  let parent ← (Identity.parent (call.parent.map Prod.fst) call.kind
    tree.basePackage).mapError fun error =>
      .atOffset path source parentOffset error.message
  let parentSpecifier ← tree.importSpecifier disk path parent.modulePath
  let imports ← tree.renamingImports disk path [parent.className, identity.className] members
  return {
    identity := identity
    parent := parent
    parentSpecifier := parentSpecifier
    members := members.map (Member.mapText tree.renamings.rename)
    imports := imports }

/-- What a registration in a source text becomes. -/
def convertCall (tree : ModuleTree) (disk : Disk) (path : Path) (source : String)
    (call : Registration) : Except FileError ConvertedHandler := do
  let result ← tree.classModule disk path source call
  return ⟨call.kind, result.identity, result.parent, result.text tree.style⟩

/-- What a source text becomes. -/
def convertSource (tree : ModuleTree) (disk : Disk) (path : Path) (source : String) :
    Except FileError Conversion := do
  if (HandlerKind.mentionedIn? source).isNone then return .unchanged
  match ← (Registration.first? source).mapError (.syntaxAt path source) with
  | none => return .unchanged
  | some call => return .converted (← tree.convertCall disk path source call)

/-- What the text of a file becomes. -/
def convertText (tree : ModuleTree) (disk : Disk) (path : Path) :
    Except FileError Conversion := do
  let source ← (disk.readText path).mapError (.io path)
  tree.convertSource disk path source

/-- Converts a file in place. The answer comes with the disk after it, also when the file is not
converted. -/
def rewriteFile (tree : ModuleTree) (disk : Disk) (path : Path) (machine : Machine := .willing) :
    Except FileError Conversion × Disk :=
  match tree.convertText disk path with
  | .error error => (.error error, disk)
  | .ok .unchanged => (.ok .unchanged, disk)
  | .ok (.converted handler) =>
    match disk.writeResult false path handler.text machine with
    | (.ok (), disk) => (.ok (.converted handler), disk)
    | (.error fault, disk) => (.error (.io path fault), disk)

/-- Converts a file in place, for a caller who goes on only when that succeeds. -/
def convertFile (tree : ModuleTree) (disk : Disk) (path : Path) (machine : Machine := .willing) :
    Except FileError (Conversion × Disk) :=
  let (answer, disk) := tree.rewriteFile disk path machine
  answer.map (·, disk)

end ModuleTree

end Reclass
