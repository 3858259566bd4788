import Reclass.Proofs.Module.Conversion
import Reclass.Proofs.Disk.Writing

/-!
# What the conversion of a file depends on

What becomes of a file depends on its own text, and on where its directory and the root of the
modules are. Other files may hold whatever they like.
-/

namespace Reclass

namespace ModuleTree

variable {tree : ModuleTree} {old new disk : Disk} {path : Path}

/-- Where files have been given other bytes, directories are where they were. -/
private theorem canonical?_rewritten (h : Disk.Rewritten False old new) (path : Path) :
    new.canonical? path = old.canonical? path := by
  rw [Disk.canonical?, Disk.canonical?]
  cases hold : old.resolve path with
  | error fault => rw [h.resolve_eq_error hold]
  | ok found =>
    obtain ⟨node, hnew, _⟩ := h.resolve_eq_ok hold
    rw [hnew]

private theorem importSpecifier_rewritten (h : Disk.Rewritten False old new) (path : Path)
    (target : String) :
    tree.importSpecifier new path target = tree.importSpecifier old path target := by
  simp only [importSpecifier, resolvedImport?, canonical?_rewritten h]

/-- What a source text becomes does not depend on what files hold. -/
theorem convertSource_rewritten (h : Disk.Rewritten False old new) (path : Path)
    (source : String) :
    tree.convertSource new path source = tree.convertSource old path source := by
  simp only [convertSource, convertCall, classModule, renamingImports,
    importSpecifier_rewritten h]

/-- The text of a file is that of the place for which its path stands. -/
private theorem readText_rewritten (h : Disk.Rewritten False old new)
    (hkept : ∀ location, old.fileLocation? path = some location →
      new.node? location = old.node? location) :
    new.readText path = old.readText path := by
  have hresolve : new.resolve path = old.resolve path := by
    cases hold : old.resolve path with
    | error fault => exact h.resolve_eq_error hold
    | ok found =>
      obtain ⟨location, node⟩ := found
      obtain ⟨node', hnew, hnode⟩ := h.resolve_eq_ok hold
      rw [hnew]
      cases hnode with
      | same => rfl
      | file content content' =>
        have hlocation := Disk.fileLocation?_eq_some_iff.mpr ⟨content, hold⟩
        have heq := hkept location hlocation
        rw [Disk.node?_of_resolve hnew, Disk.node?_of_resolve hold] at heq
        rw [Option.some.inj heq]
  rw [Disk.readText, Disk.readText, Disk.read, Disk.read, hresolve]

/-- What becomes of a file does not depend on what other files hold. -/
theorem convertText_rewritten (h : Disk.Rewritten False old new)
    (hkept : ∀ location, old.fileLocation? path = some location →
      new.node? location = old.node? location) :
    tree.convertText new path = tree.convertText old path := by
  simp only [convertText, readText_rewritten h hkept, convertSource_rewritten h]

/-- What becomes of a file is what its text becomes. -/
theorem convertText_eq_ok_iff {conversion : Conversion} :
    tree.convertText disk path = .ok conversion ↔
      ∃ source, disk.read path = .ok (.text source) ∧
        tree.convertSource disk path source = .ok conversion := by
  rw [convertText, Except.bind_eq_ok_iff]
  refine exists_congr fun source => and_congr_left fun _ => ?_
  rw [Except.mapError_eq_ok_iff, Disk.readText, Except.bind_eq_ok_iff]
  constructor
  · rintro ⟨content, hread, h⟩
    cases content with
    | text s =>
      cases h
      exact hread
    | binary bytes => exact absurd h (by simp [throw, throwThe, MonadExceptOf.throw])
  · intro hread
    exact ⟨_, hread, rfl⟩

/-- A path with a result stands for a file. -/
theorem exists_fileLocation?_of_convertText {conversion : Conversion}
    (h : tree.convertText disk path = .ok conversion) :
    ∃ location source, disk.fileLocation? path = some location ∧
      disk.node? location = some (.file (.text source)) := by
  obtain ⟨source, hread, _⟩ := convertText_eq_ok_iff.mp h
  obtain ⟨location, hfile, hnode⟩ := Disk.exists_fileLocation? hread
  exact ⟨location, source, hfile, hnode⟩

end ModuleTree

end Reclass
