import Reclass.Handler.Member
import Reclass.Identity

/-!
# Class modules

The module that takes the place of a registration: its imports, and one exported class. Values are
assigned in the constructor, methods are declared in the order of the members.
-/

namespace Reclass

/-- A name and the module that it is imported from, without extension. -/
structure ImportLine where
  name : String
  specifier : String
  deriving DecidableEq, Repr

/-- How a module is written down. -/
structure ModuleStyle where
  /-- What follows the path of an imported module. -/
  extension : String := ".js"
  /-- One step of indentation. -/
  indent : String := "  "
  deriving DecidableEq, Repr

/-- A module with one class. -/
structure ClassModule where
  identity : Identity
  parent : Identity
  /-- The module of the parent, as seen from this one. -/
  parentSpecifier : String
  members : List Member
  /-- The imports besides that of the parent. -/
  imports : List ImportLine
  deriving DecidableEq, Repr

/-- An import as a line. -/
def ImportLine.text (style : ModuleStyle) (line : ImportLine) : String :=
  "import " ++ line.name ++ " from '" ++ line.specifier ++ style.extension ++ "';\n"

namespace ClassModule

/-- The assignment of a value in the constructor. -/
def assignment (style : ModuleStyle) (m : Member) : String :=
  style.indent ++ style.indent ++ m.key.fieldTarget ++ " = " ++ m.text ++ ";\n"

/-- The constructor, when there are values to assign. -/
def constructorBlock? (style : ModuleStyle) (members : List Member) : Option String :=
  match members.filter (!·.isMethod) with
  | [] => none
  | values =>
    some ("constructor() \x7b\n" ++ style.indent ++ style.indent ++ "super();\n" ++
      String.join (values.map (assignment style)) ++ style.indent ++ "\x7d")

/-- The declaration of a method. The expression of an arrow becomes the result of a block. -/
def methodBlock (key : PropertyKey) (method : Method) : String :=
  let head := method.modifier.text ++ key.methodName ++ method.params
  if method.expressionBody then head ++ " \x7b return " ++ method.body ++ "; \x7d"
  else head ++ " " ++ method.body

/-- The blocks of the class body: the constructor, then the methods. -/
def blocks (style : ModuleStyle) (members : List Member) : List String :=
  (constructorBlock? style members).toList ++
    members.filterMap fun m => m.method.map (methodBlock m.key)

/-- The class without the imports before it. -/
def classText (style : ModuleStyle) (m : ClassModule) : String :=
  "export default class " ++ m.identity.className ++ " extends " ++ m.parent.className ++
    " \x7b\n" ++
    "\n".intercalate ((blocks style m.members).map fun block => style.indent ++ block ++ "\n") ++
    "\x7d\n"

/-- The lines before the class: the import of the parent, then the others. -/
def importText (style : ModuleStyle) (m : ClassModule) : String :=
  String.join
    ((⟨m.parent.className, m.parentSpecifier⟩ :: m.imports).map (ImportLine.text style))

/-- The whole text of the module. -/
def text (style : ModuleStyle) (m : ClassModule) : String :=
  importText style m ++ "\n" ++ classText style m

end ClassModule

end Reclass
