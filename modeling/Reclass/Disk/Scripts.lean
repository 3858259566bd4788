import Reclass.Disk

/-!
# Discovery of scripts

The script files below a directory, depth first, the entries of each directory in the order of
their names. Links are followed, but not a link back to a directory in which the search already is.
-/

namespace Reclass

/-- The extensions of script files. -/
def scriptExtensions : List String := ["js", "mjs", "cjs"]

/-- Whether a path names a script. -/
def Path.isScript (path : Path) : Bool :=
  match path.extension? with
  | some extension => scriptExtensions.contains extension
  | none => false

namespace Disk

/-- Whether a link is at a location. -/
def isLink (disk : Disk) (location : Location) : Bool :=
  match disk.node? location with
  | some (.link _) => true
  | _ => false

/-- The scripts at a path and below it. `inside` are the directories in which the search is, and
`viaLink` says whether the path ends in a link. What cannot be resolved holds none. -/
def scriptsFrom (disk : Disk) : Nat → List Location → Bool → Path → List Path
  | 0, _, _, _ => []
  | depth + 1, inside, viaLink, path =>
    match disk.resolve path with
    | .error _ => []
    | .ok (location, .directory) =>
      if viaLink && inside.contains location then []
      else (disk.children location).flatMap fun name =>
        scriptsFrom disk depth (location :: inside) (disk.isLink (name :: location)) (path / name)
    | .ok _ => if path.isScript then [path] else []

/-- A bound on the depth of a search. Every link that is followed leads to a directory in which the
search is not yet, and between two links it only goes down. -/
def searchDepth (disk : Disk) : Nat := (disk.entries.length + 2) * (disk.entries.length + 2)

/-- The scripts below a path, or the path itself when it is a script. -/
def scripts (disk : Disk) (root : Path) : List Path :=
  scriptsFrom disk disk.searchDepth [] false root

end Disk

end Reclass
