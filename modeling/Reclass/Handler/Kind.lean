/-!
# Kinds of request handlers

A handler either loads data or performs an action. The kind decides by which factory of the `NGS`
namespace a handler is registered, and how its class and the base of that class are called.
-/

namespace Reclass

/-- What a request handler is for. -/
inductive HandlerKind where
  /-- Fetches data. -/
  | load
  /-- Changes state. -/
  | action
  deriving DecidableEq, Repr

namespace HandlerKind

/-- The kinds in the order in which they are looked for: a text that mentions both factories is
taken for a load. -/
def all : List HandlerKind := [.load, .action]

/-- The word for the kind in messages. -/
def word : HandlerKind → String
  | .load => "load"
  | .action => "action"

/-- The factory as a member of the `NGS` namespace. -/
def factoryMethod : HandlerKind → String
  | .load => "createLoad"
  | .action => "createAction"

/-- The factory as it is written in a registration. -/
def factory : HandlerKind → String
  | .load => "NGS.createLoad"
  | .action => "NGS.createAction"

/-- What the name of every class of this kind ends in. -/
def suffix : HandlerKind → String
  | .load => "Load"
  | .action => "Action"

/-- The class that a handler without a named parent extends. -/
def baseClass : HandlerKind → String
  | .load => "AbstractLoad"
  | .action => "AbstractAction"

end HandlerKind

end Reclass
