import Reclass.Path

/-!
# Import paths

Modules import each other by relative paths. How many directories an import has to climb is read
off the spelling of the two paths alone, after both have been brought into normal form.
-/

namespace Reclass

namespace Component

/-- Adds a component to a normal form, which is kept back to front. -/
def push (path : List Component) : Component → List Component
  | .current => path
  | .parent =>
    match path with
    | .normal _ :: rest => rest
    | .root :: _ => path
    | _ => .parent :: path
  | component => component :: path

/-- Components without points, and with two points only where nothing is before them to be left. -/
def normalize (path : List Component) : List Component := (path.foldl push []).reverse

/-- Whether a component is a name. -/
def isNormal : Component → Bool
  | .normal _ => true
  | _ => false

/-- What is left of a path behind another one that it starts with. -/
def stripStart? : List Component → List Component → Option (List Component)
  | [], path => some path
  | _ :: _, [] => none
  | a :: start, b :: path => if a = b then stripStart? start path else none

/-- The number of directories between a root and a file below it. -/
def depthBelow? (source root : List Component) : Option Nat :=
  (stripStart? (normalize root) (normalize source)).map fun below => below.countP isNormal - 1

end Component

/-- A climb of some directories, then the way down to the target. -/
def importSpecifier (depth : Nat) (target : String) : String :=
  let target := String.ofList (target.toList.dropWhile (· == '/'))
  if depth = 0 then "./" ++ target else String.join (List.replicate depth "../") ++ target

/-- How a file imports a module below a root, when the file is below the root as well. -/
def specifierFrom? (source root : List Component) (target : String) : Option String :=
  (Component.depthBelow? source root).map fun depth => importSpecifier depth target

end Reclass
