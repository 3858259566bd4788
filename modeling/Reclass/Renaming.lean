/-!
# Renamings

Names that are no longer in use are renamed in the texts of a handler, and the new names have to be
imported. A text is gone through once from left to right. At each place the longest old name
counts, and what has been put in is not looked at again.
-/

namespace Reclass

/-- An old name, the new one, and the module from which the new one is imported. -/
structure Renaming where
  oldName : String
  name : String
  path : String
  deriving DecidableEq, Repr

/-- A piece of a text that has been gone through: a character that stays, or an old name, with the
entry that renames it. -/
inductive RenamingPiece where
  | kept (c : Char)
  | used (entry : Renaming)
  deriving DecidableEq, Repr

/-- The text of a piece after renaming. -/
def RenamingPiece.text : RenamingPiece → List Char
  | .kept c => [c]
  | .used entry => entry.name.toList

/-- The renamings of a project, in the order in which they are written. -/
structure RenamingTable where
  entries : List Renaming
  deriving DecidableEq, Repr

namespace RenamingTable

/-- A table without entries. -/
def empty : RenamingTable := ⟨[]⟩

/-- The first entry for each key, in order. -/
def firstBy (key : Renaming → String) (seen : List String) : List Renaming → List Renaming
  | [] => []
  | entry :: rest =>
    if key entry ∈ seen then firstBy key seen rest
    else entry :: firstBy key (key entry :: seen) rest

/-- The entries that can be used: those with an old name that no entry before them has. -/
def usable (table : RenamingTable) : List Renaming :=
  firstBy Renaming.oldName [] (table.entries.filter fun entry => !entry.oldName.isEmpty)

/-- The longer of two old names wins; the first one when they have the same length. -/
def longer (best : Option Renaming) (entry : Renaming) : Option Renaming :=
  match best with
  | none => some entry
  | some old => if old.oldName.length < entry.oldName.length then some entry else some old

/-- The entry with the longest old name that starts here. -/
def longest? (entries : List Renaming) (s : List Char) : Option Renaming :=
  (entries.filter fun entry => entry.oldName.toList.isPrefixOf s).foldl longer none

/-- Goes through a text, of which the first `covered` characters belong to an old name that has
been found already. -/
def pieces (entries : List Renaming) (covered : Nat) : List Char → List RenamingPiece
  | [] => []
  | c :: s =>
    match covered with
    | covered + 1 => pieces entries covered s
    | 0 =>
      match longest? entries (c :: s) with
      | some entry => .used entry :: pieces entries (entry.oldName.length - 1) s
      | none => .kept c :: pieces entries 0 s

/-- A text with all old names renamed. -/
def rename (table : RenamingTable) (text : String) : String :=
  String.ofList ((pieces table.usable 0 text.toList).flatMap RenamingPiece.text)

/-- Whether renaming a text uses an entry. -/
def uses (table : RenamingTable) (entry : Renaming) (text : String) : Bool :=
  (pieces table.usable 0 text.toList).contains (.used entry)

/-- The entries that renaming some texts uses, in table order, and of those with the same new name
the first. -/
def imports (table : RenamingTable) (texts : List String) : List Renaming :=
  firstBy Renaming.name [] (table.usable.filter fun entry => texts.any (table.uses entry))

end RenamingTable

end Reclass
