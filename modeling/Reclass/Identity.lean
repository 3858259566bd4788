import Reclass.Handler.Kind
import Reclass.Script.Lexeme
import Reclass.Text.UpperCase

/-!
# Identities

A handler is registered under a dotted name such as `orders.view_item`. Its identity is the class
that takes its place: `ViewItemLoad`, in the module `orders/ViewItemLoad`.
-/

namespace Reclass

/-- Why a name gives no identity. -/
inductive NameError where
  /-- Nothing but white space. -/
  | empty
  /-- A segment of nothing but white space. -/
  | emptySegment (name : String)
  /-- A class name that is no identifier, or the suffix alone. -/
  | invalidClassName (name className : String)
  deriving DecidableEq, Repr

/-- The wording of each error. -/
def NameError.message : NameError → String
  | .empty => "empty identifier"
  | .emptySegment name => "identifier '" ++ name ++ "' has an empty segment"
  | .invalidClassName name className =>
    "identifier '" ++ name ++ "' does not produce a valid class name ('" ++ className ++ "')"

/-- The name of a handler: the packages around it and its own word. -/
structure DottedName where
  packages : List String
  leaf : String
  deriving DecidableEq, Repr

namespace DottedName

/-- The segments with a point between each two. -/
def text (name : DottedName) : String :=
  String.ofList (Text.join '.' ((name.packages ++ [name.leaf]).map String.toList))

/-- Reads a dotted name. White space around the whole name is dropped, that around a segment is
kept, and no segment may be blank. -/
def parse (s : String) : Except NameError DottedName :=
  let name := Text.trim s.toList
  if name.isEmpty then .error .empty
  else
    let segments := Text.fields '.' name
    if segments.any (·.all Text.isWhiteSpace) then .error (.emptySegment (String.ofList name))
    else .ok ⟨segments.dropLast.map String.ofList, String.ofList (segments.getLast?.getD [])⟩

end DottedName

/-- A class and the module that holds it. The module path is relative to the root of the modules
and has no extension. -/
structure Identity where
  modulePath : String
  className : String
  deriving DecidableEq, Repr

/-- Joins the words between underscores, each with its first letter in upper case. -/
def classStem (leaf : List Char) : List Char :=
  (Text.fields '_' leaf).flatMap fun
    | [] => []
    | c :: word => Text.upperCase c ++ word

/-- The identity of a handler of some kind with this name. -/
def DottedName.identity (name : DottedName) (kind : HandlerKind) : Except NameError Identity :=
  let className := String.ofList (classStem name.leaf.toList) ++ kind.suffix
  if Script.isName className.toList && className != kind.suffix then
    let segments := name.packages ++ [className]
    .ok ⟨String.ofList (Text.join '/' (segments.map String.toList)), className⟩
  else .error (.invalidClassName name.text className)

namespace Identity

/-- The identity of a handler of some kind registered under a text. -/
def ofName (s : String) (kind : HandlerKind) : Except NameError Identity := do
  (← DottedName.parse s).identity kind

/-- A path without the slashes at its end. -/
def trimSlashes (s : List Char) : List Char := (s.reverse.dropWhile (· == '/')).reverse

/-- The base of all handlers of a kind, inside of a package. -/
def base (kind : HandlerKind) (package : String) : Identity where
  modulePath :=
    if package.isEmpty then kind.baseClass
    else String.ofList (trimSlashes package.toList) ++ "/" ++ kind.baseClass
  className := kind.baseClass

/-- The parent of a handler: the class with the given name, or else the base of its kind. -/
def parent (explicit : Option String) (kind : HandlerKind) (package : String) :
    Except NameError Identity :=
  match explicit with
  | some name => ofName name kind
  | none => .ok (base kind package)

end Identity

end Reclass
