import Reclass.Text.Fields

/-!
# Paths

A path is kept as it is written. Its components are what it means: empty parts and points between
slashes do not count, a point at the very start does.
-/

namespace Reclass

/-- A path as it is written. -/
structure Path where
  text : String
  deriving DecidableEq, Repr

/-- A part of a path. -/
inductive Component where
  /-- The slash at the start of an absolute path. -/
  | root
  /-- A point at the start of a relative path. -/
  | current
  /-- Two points. -/
  | parent
  | normal (name : String)
  deriving DecidableEq, Repr

namespace Path

/-- Whether a path starts at the root. -/
def isAbsolute (path : Path) : Bool := path.text.toList.head? == some '/'

/-- The component that a part between slashes stands for. Empty parts and single points stand for
none. -/
def componentOf? (part : List Char) : Option Component :=
  if part = [] ∨ part = ['.'] then none
  else if part = ['.', '.'] then some .parent
  else some (.normal (String.ofList part))

/-- The components of a path. -/
def components (path : Path) : List Component :=
  let parts := Text.fields '/' path.text.toList
  let start :=
    if path.isAbsolute then [.root]
    else if parts.head? = some ['.'] then [.current]
    else []
  start ++ parts.filterMap componentOf?

/-- A path seen from another one. An absolute path is the same from everywhere. -/
def join (base path : Path) : Path :=
  if path.isAbsolute || base.text.isEmpty then path
  else if base.text.toList.getLast? = some '/' then ⟨base.text ++ path.text⟩
  else ⟨base.text ++ "/" ++ path.text⟩

instance : HDiv Path String Path where
  hDiv base text := base.join ⟨text⟩

/-- The last component, when it is a name. -/
def fileName? (path : Path) : Option String :=
  match path.components.getLast? with
  | some (.normal name) => some name
  | _ => none

/-- A written path, back to front, without the slashes and the single points behind its last
name. -/
def dropTrailing : List Char → List Char
  | '/' :: s => dropTrailing s
  | '.' :: '/' :: s => dropTrailing ('/' :: s)
  | s => s

/-- The directory of the file that a path names; a single name is in the current one. -/
def directory (path : Path) : Path :=
  match (dropTrailing path.text.toList.reverse).dropWhile (· != '/') with
  | [] => ⟨"."⟩
  | rest => ⟨String.ofList rest.reverse⟩

/-- A file name cut at its last point, without the point. A point at the start cuts nothing. -/
def splitName (name : List Char) : List Char × Option (List Char) :=
  match name.reverse.span (· != '.') with
  | (_, []) => (name, none)
  | (_, [_]) => (name, none)
  | (extension, _ :: stem) => (stem.reverse, some extension.reverse)

/-- What follows the last point of the file name. -/
def extension? (path : Path) : Option String :=
  path.fileName?.bind fun name => (splitName name.toList).2.map String.ofList

/-- A path whose file name keeps its stem and gets another extension. A path without a file name
stays as it is. -/
def setExtension (path : Path) (extension : String) : Path :=
  match path.fileName? with
  | none => path
  | some name =>
    let trimmed := (dropTrailing path.text.toList.reverse).reverse
    let dropped := name.toList.length - (splitName name.toList).1.length
    let stem := String.ofList (trimmed.take (trimmed.length - dropped))
    ⟨if extension.isEmpty then stem else stem ++ "." ++ extension⟩

/-- A path with another extension. The old one is taken off first; where only points are left of
the file name, they are no name any more, and nothing is added. -/
def withExtension (path : Path) (extension : String) : Path :=
  match path.extension? with
  | none => path.setExtension extension
  | some old =>
    let written := path.text.toList
    setExtension ⟨String.ofList (written.take (written.length - old.length))⟩ extension

end Path

end Reclass
