import Reclass.Proofs.Disk.Writing

/-!
# Disks that differ in one place

Where the writing of a file breaks off behind its backup, the disk differs from what it was in the
place of the backup. What is written elsewhere after that is the same on both disks, and they go on
differing in this one place.
-/

namespace Reclass

namespace Disk

/-- That a disk is what another one has become by the writing of a file to one place, or would be
without it. -/
structure DiffersAt (spoiled : Location) (old new : Disk) : Prop where
  rewritten : Rewritten True old new
  agrees : ∀ location, location ≠ spoiled → new.node? location = old.node? location

variable {spoiled location place : Location} {old new : Disk} {machine : Machine} {path : Path}

/-- Two disks that differ in one place still do so when one thing is put on both of them. -/
theorem DiffersAt.put (h : DiffersAt spoiled old new) (hroot : location ≠ []) (node : Node) :
    DiffersAt spoiled (old.put location node) (new.put location node) := by
  refine ⟨⟨h.rewritten.workingDirectory, fun other => ?_⟩, fun other hother => ?_⟩
  · rw [node?_put old hroot, node?_put new hroot]
    split
    · exact .same _
    · exact h.rewritten.node? other
  · rw [node?_put old hroot, node?_put new hroot, h.agrees other hother]

/-- A file is copied alike when neither the file nor its copy is where the disks differ. -/
theorem DiffersAt.copyTo (hcopies : machine.CopiesLocally) (h : DiffersAt spoiled old new)
    (hlocation : location ≠ spoiled) (hplace : place ≠ spoiled) (hroot : place ≠ []) :
    (new.copyTo machine location place).1 = (old.copyTo machine location place).1 ∧
      DiffersAt spoiled (old.copyTo machine location place).2
        (new.copyTo machine location place).2 := by
  have hbreaks := hcopies h.rewritten (h.agrees location hlocation) (h.agrees place hplace)
  have hemptied := h.put hroot (.file (.text ""))
  simp only [Disk.copyTo, hbreaks, hemptied.agrees location hlocation]
  split
  · exact ⟨rfl, h⟩
  · exact ⟨rfl, h.put hroot _⟩
  · split
    · exact ⟨rfl, hemptied.put hroot _⟩
    · exact ⟨rfl, h⟩

/-- A file is replaced alike when it is not where the disks differ. -/
theorem DiffersAt.replaceAt (hwhole : machine.AllOrNothing) (hreplaces : machine.ReplacesLocally)
    (h : DiffersAt spoiled old new) (hlocation : location ≠ spoiled) (hroot : location ≠ [])
    (text : String) :
    (new.replaceAt machine location text).1 = (old.replaceAt machine location text).1 ∧
      DiffersAt spoiled (old.replaceAt machine location text).2
        (new.replaceAt machine location text).2 := by
  rcases replaceAt_both_cases hwhole hreplaces h.rewritten (h.agrees location hlocation) text with
    ⟨hold, hnew⟩ | ⟨fault, hold, hnew⟩ <;> rw [hold, hnew]
  · exact ⟨rfl, h.put hroot _⟩
  · exact ⟨rfl, h⟩

/-- A result is written on both disks or on none, when neither its file nor its backup is where they
differ. Where the backup cannot be opened, they may say so in different words. -/
theorem DiffersAt.writeResult (hwhole : machine.AllOrNothing)
    (hcopies : machine.CopiesLocally) (hreplaces : machine.ReplacesLocally)
    (h : DiffersAt spoiled old new) (hold : old.fileLocation? path = some location)
    (hlocation : location ≠ spoiled) (backup : Bool)
    (hbackup : backup = true → ∀ place, old.writeLocation path.backup = .ok place →
      place ≠ spoiled ∧ old.IsFree place) (text : String) :
    (new.writeResult backup path text machine).1.toOption =
        (old.writeResult backup path text machine).1.toOption ∧
      DiffersAt spoiled (old.writeResult backup path text machine).2
        (new.writeResult backup path text machine).2 := by
  have hnew := h.rewritten.fileLocation? hold
  have hroot := (isFree_of_fileLocation? hold).ne_nil
  cases backup with
  | false =>
    rw [writeResult_plain hold, writeResult_plain hnew]
    exact (h.replaceAt hwhole hreplaces hlocation hroot text).imp_left (congrArg Except.toOption)
  | true =>
    cases hplace : old.writeLocation path.backup with
    | error fault =>
      -- a file that has been added can turn one fault into another
      cases hplace' : new.writeLocation path.backup with
      | error fault' =>
        rw [writeResult_of_copy_error (copy_eq_error hold hplace),
          writeResult_of_copy_error (copy_eq_error hnew hplace')]
        exact ⟨rfl, h⟩
      | ok place => cases hplace.symm.trans (h.rewritten.writeLocation_eq_ok_iff.mp hplace')
    | ok place =>
      obtain ⟨hne, hfree⟩ := hbackup rfl place hplace
      have hcopy : old.copy path path.backup machine = old.copyTo machine location place :=
        copy_eq hold hplace
      have hcopy' : new.copy path path.backup machine = new.copyTo machine location place :=
        copy_eq hnew (h.rewritten.writeLocation_eq_ok_iff.mpr hplace)
      obtain ⟨hanswer, hcopied⟩ := h.copyTo hcopies hlocation hne hfree.ne_nil
      have hfile := (hfree.rewritten_copyTo machine hold).fileLocation? hold
      have hfile' := hcopied.rewritten.fileLocation? hfile
      generalize old.copyTo machine location place = before at hcopy hanswer hcopied hfile
      generalize new.copyTo machine location place = after at hcopy' hanswer hcopied hfile'
      obtain ⟨answer, before⟩ := before
      obtain ⟨answer', after⟩ := after
      obtain rfl : answer' = answer := hanswer
      cases answer' with
      | error fault =>
        rw [writeResult_of_copy_error hcopy, writeResult_of_copy_error hcopy']
        exact ⟨rfl, hcopied⟩
      | ok =>
        rw [writeResult_of_copy_ok hcopy hfile, writeResult_of_copy_ok hcopy' hfile']
        exact (hcopied.replaceAt hwhole hreplaces hlocation hroot text).imp_left
          (congrArg Except.toOption)

end Disk

end Reclass
