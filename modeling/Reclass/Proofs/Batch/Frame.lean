import Reclass.Proofs.Batch.Accounts

/-!
# What a batch leaves alone

A batch writes to the files that it converts and, when it keeps backups, to the places of these,
also for a file that it then fails to replace. All else on the disk stays as it is, and so do links,
behind which the files are written.
-/

namespace Reclass

namespace Disk

/-- That two disks hold the same outside of some places. -/
def AgreesOutside (places : Location → Prop) (old new : Disk) : Prop :=
  ∀ location, ¬places location → new.node? location = old.node? location

variable {places places' : Location → Prop} {old new last : Disk}

/-- A disk agrees with itself everywhere. -/
theorem agreesOutside_refl (disk : Disk) : AgreesOutside places disk disk := fun _ _ => rfl

/-- Disks that agree outside of some places agree outside of more places. -/
theorem AgreesOutside.mono (h : AgreesOutside places old new)
    (hplaces : ∀ location, places location → places' location) : AgreesOutside places' old new :=
  fun location hout => h location fun hin => hout (hplaces location hin)

/-- What two changes leave alone is left alone by one after the other. -/
theorem AgreesOutside.trans (h : AgreesOutside places old new)
    (h' : AgreesOutside places new last) : AgreesOutside places old last :=
  fun location hout => (h' location hout).trans (h location hout)

end Disk

namespace ModuleTree

/-- The places to which a batch may write. The paths stand for what they stand for on the disk on
which the batch starts. -/
inductive MayWrite (tree : ModuleTree) (options : BatchOptions) (disk : Disk) (paths : List Path)
    (report : Report) (location : Location) : Prop
  /-- The place of a file that is reported as converted. -/
  | file {path : Path} (hmem : path ∈ report.converted)
      (hfile : disk.fileLocation? path = some location)
  /-- The place of the backup of a file that has a result. -/
  | backup {path : Path} (hbackup : options.backup = true) (hmem : path ∈ paths)
      (hresult : tree.hasResult disk path = true)
      (hplace : disk.writeLocation path.backup = .ok location)

/-- That nothing but what a batch may write has changed on a disk, and nothing in a dry run. -/
structure Framed (tree : ModuleTree) (options : BatchOptions) (disk : Disk) (paths : List Path)
    (report : Report) (last : Disk) : Prop where
  /-- What has changed was a file or nothing, is a file, and may be written. -/
  changed : ∀ location, last.node? location ≠ disk.node? location →
    tree.MayWrite options disk paths report location ∧ disk.IsFree location ∧
      ∃ content, last.node? location = some (.file content)
  links : ∀ location target,
    last.node? location = some (.link target) ↔ disk.node? location = some (.link target)
  dry : options.dryRun = true → last = disk

variable {tree : ModuleTree} {machine : Machine} {options : BatchOptions}
  {disk new mid last : Disk} {path : Path} {paths : List Path} {record : Report}
  {records : List Report}

/-! ### One turn -/

/-- A file that has been converted has a result. -/
theorem hasResult_of_converted {handler : ConvertedHandler}
    (hresult : tree.convertText disk path = .ok (.converted handler)) :
    tree.hasResult disk path = true := by
  simp only [hasResult, hresult]

namespace Turn

/-- In a dry run a turn changes nothing. -/
theorem dry (h : Turn tree machine options disk new path record mid)
    (hdry : options.dryRun = true) : mid = new := by
  cases h with
  | failed => rfl
  | skipped => rfl
  | announced => rfl
  | written _ hreal => simp [hdry] at hreal
  | notWritten _ hreal => simp [hdry] at hreal

/-- A file without a result is not converted. -/
theorem converted_eq_nil (h : Turn tree machine options disk new path record mid)
    (hresult : tree.hasResult disk path = false) : record.converted = [] := by
  cases h with
  | failed => rfl
  | skipped => rfl
  | notWritten => rfl
  | announced hconverted => simp [hasResult, hconverted] at hresult
  | written hconverted => simp [hasResult, hconverted] at hresult

variable (hwhole : machine.AllOrNothing) (hdisk : disk.WellFormed)
  (hnew : Disk.Rewritten True disk new)

include hwhole hdisk hnew

/-- A turn changes nothing, or writes a result. This succeeds exactly when the file is recorded as
converted. -/
theorem eq_or_written (h : Turn tree machine options disk new path record mid) :
    mid = new ∨ tree.hasResult disk path = true ∧ ∃ text answer,
      Disk.Written disk new options.backup path text answer mid ∧
        (record.converted = [path] ∧ answer = .ok () ∨
          record.converted = [] ∧ ∃ fault, answer = .error fault) := by
  cases h with
  | failed => exact .inl rfl
  | skipped => exact .inl rfl
  | announced => exact .inl rfl
  | written hresult _ hwrite =>
    obtain ⟨file, _, hfile, _⟩ := exists_fileLocation?_of_convertText hresult
    have hwritten := Disk.writeResult_written hwhole hdisk hnew hfile hwrite
    exact .inr ⟨hasResult_of_converted hresult, _, _, hwritten, .inl ⟨rfl, rfl⟩⟩
  | notWritten hresult _ hwrite =>
    obtain ⟨file, _, hfile, _⟩ := exists_fileLocation?_of_convertText hresult
    have hwritten := Disk.writeResult_written hwhole hdisk hnew hfile hwrite
    exact .inr ⟨hasResult_of_converted hresult, _, _, hwritten, .inr ⟨rfl, _, rfl⟩⟩

/-- In its turn a file is written, and its backup, and nothing else. A file that is not converted
is not written. -/
theorem framed (h : Turn tree machine options disk new path record mid) :
    Disk.Rewritten True new mid ∧
      Disk.AgreesOutside (tree.MayWrite options disk [path] record) new mid := by
  obtain rfl | ⟨hresult, text, answer, hwritten, hrecord⟩ := h.eq_or_written hwhole hdisk hnew
  · exact ⟨.refl _, Disk.agreesOutside_refl _⟩
  refine ⟨hwritten.rewritten hdisk hnew, fun location hout => ?_⟩
  have hmem : path ∈ [path] := List.mem_singleton.mpr rfl
  refine hwritten.node?_eq hdisk hnew (fun hanswer hfile => ?_) fun hbackup hplace => ?_
  · rcases hrecord with ⟨hconverted, -⟩ | ⟨-, fault, hfault⟩
    · exact hout (.file (hconverted ▸ hmem) hfile)
    · cases hanswer.symm.trans hfault
  · exact hout (.backup hbackup hmem hresult hplace)

/-- A file that is not converted, and has no backup, changes nothing. -/
theorem eq_of_mayWrite_nothing (h : Turn tree machine options disk new path record mid)
    (hrecord : record.converted = [])
    (hnothing : ∀ place, ¬tree.MayWrite options disk [path] record place) : mid = new := by
  obtain rfl | ⟨hresult, text, answer, hwritten, ⟨hconverted, -⟩ | ⟨-, fault, rfl⟩⟩ :=
    h.eq_or_written hwhole hdisk hnew
  · rfl
  · rw [hrecord] at hconverted
    cases hconverted
  · cases hwritten with
    | refused => rfl
    | copied _ _ hbackup hplace =>
      exact absurd (.backup hbackup (List.mem_singleton.mpr rfl) hresult hplace) (hnothing _)

end Turn

/-! ### A run of turns -/

namespace Turns

/-- In a dry run nothing changes. -/
theorem dry (h : Turns tree machine options disk new paths records last)
    (hdry : options.dryRun = true) : last = new := by
  induction h with
  | nil => rfl
  | cons hturn _ ih => rw [ih, hturn.dry hdry]

/-- The turns of some files write no more than the reports say. -/
theorem framed (hwhole : machine.AllOrNothing)
    (h : Turns tree machine options disk new paths records last) (hdisk : disk.WellFormed)
    (hnew : Disk.Rewritten True disk new) :
    Disk.Rewritten True new last ∧
      Disk.AgreesOutside (tree.MayWrite options disk paths (.mergeAll records)) new last := by
  induction h with
  | nil new => exact ⟨.refl new, Disk.agreesOutside_refl new⟩
  | cons hturn _ ih =>
    obtain ⟨hfirst, hagrees⟩ := hturn.framed hwhole hdisk hnew
    obtain ⟨hrest, hagrees'⟩ := ih (hnew.trans hfirst)
    refine ⟨hfirst.trans hrest, (hagrees.mono ?_).trans (hagrees'.mono ?_)⟩
    · rintro location (⟨hmem, hfile⟩ | ⟨hbackup, hmem, hresult, hplace⟩)
      · exact .file (List.mem_append_left _ hmem) hfile
      · exact .backup hbackup (List.mem_cons.mpr (.inl (List.mem_singleton.mp hmem))) hresult hplace
    · rintro location (⟨hmem, hfile⟩ | ⟨hbackup, hmem, hresult, hplace⟩)
      · exact .file (List.mem_append_right _ hmem) hfile
      · exact .backup hbackup (List.mem_cons_of_mem _ hmem) hresult hplace

end Turns

/-- A batch changes no more than it may write. -/
theorem framed_convertBatch (tree : ModuleTree) (options : BatchOptions)
    (hwhole : machine.AllOrNothing) (hdisk : disk.WellFormed) (paths : List Path) :
    tree.Framed options disk paths (tree.convertBatch options disk paths machine).1
      (tree.convertBatch options disk paths machine).2 := by
  obtain ⟨records, last, hturns⟩ := exists_turns tree machine options disk disk paths
  obtain ⟨hlast, hagrees⟩ := hturns.framed hwhole hdisk (.refl disk)
  rw [hturns.convertBatch_eq]
  refine ⟨fun location hchanged => ⟨?_, ?_⟩, fun location target => ?_, hturns.dry⟩
  · by_contra hout
    exact hchanged (hagrees location hout)
  · have hnode := hlast.node? location
    rw [Disk.IsFree]
    generalize disk.node? location = before at hnode hchanged
    generalize last.node? location = after at hnode hchanged
    cases hnode with
    | same => exact absurd rfl hchanged
    | file old content => exact ⟨.inr ⟨old, rfl⟩, content, rfl⟩
    | added _ content => exact ⟨.inl rfl, content, rfl⟩
  · have hnode := hlast.node? location
    generalize disk.node? location = before at hnode
    generalize last.node? location = after at hnode
    cases hnode <;> simp

end ModuleTree

end Reclass
