import Reclass.Script.Token
import Reclass.Script.Lexeme

/-!
# Members

The members of a property literal. A member is a value, or a method that can be declared again in a
class. `Member.insert` says how a later member replaces earlier ones of the same name: it takes
the place of the first of them.
-/

namespace Reclass

/-- How a key is written. -/
inductive KeyForm where
  | ident
  | str
  | number
  deriving DecidableEq, Repr

/-- The key of a member: as it is written, and the property name that it denotes. -/
structure PropertyKey where
  raw : String
  name : String
  form : KeyForm
  deriving DecidableEq, Repr

namespace PropertyKey

/-- What the constructor assigns to: a name behind a point where that is possible, and otherwise
the key in brackets. -/
def fieldTarget (key : PropertyKey) : String :=
  match key.form with
  | .ident => "this." ++ key.raw
  | .str =>
    if Script.isName key.name.toList then "this." ++ key.name else "this[" ++ key.raw ++ "]"
  | .number => "this[" ++ key.raw ++ "]"

/-- The name that a method with this key is declared by. -/
def methodName (key : PropertyKey) : String :=
  match key.form with
  | .str => if Script.isName key.name.toList then key.name else key.raw
  | _ => key.raw

end PropertyKey

/-- What stands before the name of a method. -/
inductive Modifier where
  | plain
  | async
  | generator
  | asyncGenerator
  | getter
  | setter
  deriving DecidableEq, Repr

/-- The modifier as it is written before the name. -/
def Modifier.text : Modifier → String
  | .plain => ""
  | .async => "async "
  | .generator => "*"
  | .asyncGenerator => "async *"
  | .getter => "get "
  | .setter => "set "

/-- The parts of a method. -/
structure Method where
  modifier : Modifier
  /-- The parameter list, parentheses included. -/
  params : String
  /-- The block with its braces, or the expression of an arrow. -/
  body : String
  /-- Whether the body is an expression. -/
  expressionBody : Bool
  deriving DecidableEq, Repr

/-- A member of a property literal. -/
structure Member where
  key : PropertyKey
  /-- The parts of a method; a value has none. -/
  method : Option Method
  /-- The value as it is written; of a method without colon, the whole member. -/
  text : String
  /-- The place of the key. -/
  offset : Nat
  deriving DecidableEq, Repr

namespace Member

/-- Whether the member is a method. -/
def isMethod (m : Member) : Bool := m.method.isSome

/-- The word before an accessor. -/
def accessor? (m : Member) : Option String :=
  match m.method with
  | some ⟨.getter, _, _, _⟩ => some Modifier.getter.text
  | some ⟨.setter, _, _, _⟩ => some Modifier.setter.text
  | _ => none

/-- The slot that the member occupies. A getter and a setter of one name occupy different ones. -/
def slot (m : Member) : String :=
  match m.accessor? with
  | some accessor => accessor ++ m.key.name
  | none => m.key.name

/-- The slots whose members give way to this one: an accessor replaces a plain member and an
accessor of its own sort, a plain member replaces accessors too. -/
def replaces (m : Member) : List String :=
  match m.accessor? with
  | some accessor => [m.key.name, accessor ++ m.key.name]
  | none => [m.key.name, Modifier.getter.text ++ m.key.name, Modifier.setter.text ++ m.key.name]

/-- Adds a member to those before it. It stands where the first member that it replaces stood, and
at the end when it replaces none. -/
def insert (new : Member) : List Member → List Member
  | [] => [new]
  | m :: rest =>
    if m.slot ∈ new.replaces then new :: rest.filter (·.slot ∉ new.replaces)
    else m :: insert new rest

/-- Applies a change to every text but the key. -/
def mapText (f : String → String) (m : Member) : Member :=
  { m with
    text := f m.text
    method := m.method.map fun method =>
      { method with params := f method.params, body := f method.body } }

/-- The texts to which `mapText` applies a change. -/
def texts (m : Member) : List String :=
  m.text :: match m.method with
    | some method => [method.params, method.body]
    | none => []

end Member

end Reclass
