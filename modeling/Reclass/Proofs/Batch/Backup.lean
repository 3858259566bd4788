import Reclass.Proofs.Batch.Frame
import Mathlib.Data.List.Basic

/-!
# Backups

A backup is copied when the result of its file is written, and by then the batch has written the
results and the backups of the files before it. So a backup holds what its file held at the start
only if none of these went to the file, and if nothing later goes to the backup. It is enough that
the places to which the batch writes are apart from each other.
-/

namespace Reclass

namespace Disk

variable {disk : Disk} {path : Path} {location : Location}

/-- The places to which a conversion with a backup writes: that of the file, and that of the
backup. -/
def backupPlaces? (disk : Disk) (path : Path) : Option (Location × Location) := do
  let file ← disk.fileLocation? path
  let backup ← (disk.writeLocation path.backup).toOption
  return (file, backup)

/-- A conversion with a backup writes to where the file is and to where the backup can be opened. -/
theorem backupPlaces?_eq_some_iff {file backup : Location} :
    disk.backupPlaces? path = some (file, backup) ↔
      disk.fileLocation? path = some file ∧ disk.writeLocation path.backup = .ok backup := by
  simp [backupPlaces?, Option.bind_eq_some_iff, Except.toOption_eq_some_iff]

end Disk

/-- That every backup can be kept beside what else is written, from the places of the files and
their backups in the order in which they are written: no backup takes the place of its own file, and
nothing later is read from, or copied to, a place that an earlier file or backup has taken. -/
def BackupsApart (places : List (Location × Location)) : Prop :=
  (∀ place ∈ places, place.2 ≠ place.1) ∧
    places.Pairwise fun earlier later =>
      later.1 ≠ earlier.1 ∧ later.1 ≠ earlier.2 ∧ later.2 ≠ earlier.2

instance (places : List (Location × Location)) : Decidable (BackupsApart places) :=
  inferInstanceAs (Decidable (_ ∧ _))

namespace ModuleTree

variable {tree : ModuleTree} {machine : Machine} {disk new mid last : Disk} {paths : List Path}
  {path : Path} {record : Report} {records : List Report}

/-- The places that are written for a file when a batch keeps backups. Nothing is written for a file
without a result, or whose backup has no place. -/
def writtenPlaces? (tree : ModuleTree) (disk : Disk) (path : Path) :
    Option (Location × Location) :=
  match tree.convertText disk path with
  | .ok (.converted _) => disk.backupPlaces? path
  | _ => none

/-- The places that a batch with backups writes, file by file. -/
def writtenPlaces (tree : ModuleTree) (disk : Disk) (paths : List Path) :
    List (Location × Location) :=
  paths.filterMap (tree.writtenPlaces? disk)

/-- That after a batch every file that it reports as converted has a backup that holds the bytes
which the file held when the batch started. -/
def BackupsHold (tree : ModuleTree) (disk : Disk) (paths : List Path)
    (machine : Machine := .willing) : Prop :=
  ∀ path ∈ (tree.convertBatch { dryRun := false, backup := true } disk paths machine).1.converted,
    (tree.convertBatch { dryRun := false, backup := true } disk paths machine).2.read path.backup =
      disk.read path

instance : Decidable (tree.BackupsHold disk paths machine) :=
  inferInstanceAs (Decidable (∀ _ ∈ _, _))

/-- The places that are written for a file are those of the file and of its backup. -/
theorem backupPlaces?_of_writtenPlaces? {file backup : Location}
    (h : tree.writtenPlaces? disk path = some (file, backup)) :
    disk.fileLocation? path = some file ∧ disk.writeLocation path.backup = .ok backup := by
  rw [writtenPlaces?] at h
  split at h
  · exact Disk.backupPlaces?_eq_some_iff.mp h
  · cases h

/-- A file with a result whose backup has a place is written in a batch. -/
theorem exists_writtenPlaces?_of_hasResult {backup : Location}
    (hresult : tree.hasResult disk path = true)
    (hbackup : disk.writeLocation path.backup = .ok backup) :
    ∃ file, tree.writtenPlaces? disk path = some (file, backup) := by
  rw [hasResult] at hresult
  split at hresult
  · next handler hconverted =>
    obtain ⟨file, _, hfile, _⟩ := exists_fileLocation?_of_convertText hconverted
    refine ⟨file, ?_⟩
    rw [writtenPlaces?, hconverted]
    exact Disk.backupPlaces?_eq_some_iff.mpr ⟨hfile, hbackup⟩
  · cases hresult

/-! ### Turns that keep a backup -/

/-- How a batch is run that writes, and keeps backups. -/
abbrev withBackups : BatchOptions := { dryRun := false, backup := true }

section Keeping

variable (hwhole : machine.AllOrNothing) (hdisk : disk.WellFormed)
  (hnew : Disk.Rewritten True disk new)

include hwhole hdisk hnew

/-- When a file is converted in its turn, its backup holds what the file held before. -/
theorem Turn.keeps_backup
    (h : Turn tree machine withBackups disk new path record mid) (hrecord : record.converted ≠ []) :
    ∃ file backup, tree.writtenPlaces? disk path = some (file, backup) ∧
      (backup ≠ file → mid.node? backup = new.node? file) := by
  cases h with
  | failed => exact absurd rfl hrecord
  | skipped => exact absurd rfl hrecord
  | announced _ hdry => cases hdry
  | notWritten => exact absurd rfl hrecord
  | written hresult _ hwrite =>
    obtain ⟨file, _, hfile, _⟩ := exists_fileLocation?_of_convertText hresult
    cases Disk.writeResult_written hwhole hdisk hnew hfile hwrite with
    | replaced hbackup => cases hbackup
    | @kept file backup copied _ hfile hbackup hcopied =>
      refine ⟨file, backup, ?_, fun hne => ?_⟩
      · rw [writtenPlaces?, hresult]
        exact Disk.backupPlaces?_eq_some_iff.mpr ⟨hfile, hbackup⟩
      · have hroot := (hnew.isFree (hdisk.node?_writeLocation hbackup)).ne_nil
        rw [Disk.node?_put _ (Disk.isFree_of_fileLocation? hfile).ne_nil, if_neg hne,
          Disk.node?_put new hroot, if_pos rfl, hcopied hne]

/-- A run of files changes only the places that are written for them. -/
theorem Turns.agreesOutside_places
    (h : Turns tree machine withBackups disk new paths records last) :
    Disk.AgreesOutside
      (fun location => ∃ place ∈ tree.writtenPlaces disk paths,
        location = place.1 ∨ location = place.2) new last := by
  refine (h.framed hwhole hdisk hnew).2.mono ?_
  rintro location (⟨hmem, hfile⟩ | ⟨-, hmem, hresult, hbackup⟩)
  · obtain ⟨before, behind, first, second, mid, after, rfl, hfirst, hturn, -⟩ :=
      h.exists_of_mem_converted hmem
    have hmid := hnew.trans (hfirst.framed hwhole hdisk hnew).1
    obtain ⟨file, backup, hplaces, -⟩ := hturn.keeps_backup hwhole hdisk hmid (by simp)
    obtain ⟨hfile', -⟩ := backupPlaces?_of_writtenPlaces? hplaces
    refine ⟨(file, backup), List.mem_filterMap.mpr ⟨_, by simp, hplaces⟩, .inl ?_⟩
    rw [hfile] at hfile'
    exact Option.some.inj hfile'
  · obtain ⟨file, hplaces⟩ := exists_writtenPlaces?_of_hasResult hresult hbackup
    exact ⟨(file, location), List.mem_filterMap.mpr ⟨_, hmem, hplaces⟩, .inr rfl⟩

end Keeping

/-- When the places of the converted files and of their backups are apart, every converted file has
a backup that holds what the file held when the batch started, whatever the machine refuses. -/
theorem backupsHold_of_apart (tree : ModuleTree) (hwhole : machine.AllOrNothing)
    (hdisk : disk.WellFormed) (hapart : BackupsApart (tree.writtenPlaces disk paths)) :
    tree.BackupsHold disk paths machine := by
  intro path hpath
  obtain ⟨records, last, hturns⟩ := exists_turns tree machine withBackups disk disk paths
  rw [hturns.convertBatch_eq] at hpath ⊢
  obtain ⟨before, behind, first, second, mid, next, rfl, hfirst, hturn, hsecond⟩ :=
    hturns.exists_of_mem_converted hpath
  have hmid := (hfirst.framed hwhole hdisk (.refl disk)).1
  have hnext := hmid.trans (hturn.framed hwhole hdisk hmid).1
  have hlast := hnext.trans (hsecond.framed hwhole hdisk hnext).1
  obtain ⟨file, backup, hplaces, hcopied⟩ := hturn.keeps_backup hwhole hdisk hmid (by simp)
  obtain ⟨hfile, hbackup⟩ := backupPlaces?_of_writtenPlaces? hplaces
  obtain ⟨content, hcontent⟩ := Disk.node?_fileLocation? hfile
  rw [writtenPlaces, List.filterMap_append, List.filterMap_cons_some hplaces] at hapart
  obtain ⟨hown, hpairs⟩ := hapart
  obtain ⟨_, hbehind, hbefore⟩ := List.pairwise_append.mp hpairs
  -- the file is as it was when its turn comes
  have hsame : mid.node? file = disk.node? file := by
    refine hfirst.agreesOutside_places hwhole hdisk (.refl disk) file ?_
    rintro ⟨place, hplace, heq⟩
    obtain ⟨hfiles, hcopies, _⟩ := hbefore place hplace (file, backup) (by simp)
    exact heq.elim hfiles hcopies
  -- and the backup stays as it is
  have hkept : last.node? backup = next.node? backup := by
    refine hsecond.agreesOutside_places hwhole hdisk hnext backup ?_
    rintro ⟨place, hplace, heq⟩
    obtain ⟨_, hcopy, hcopy'⟩ := List.rel_of_pairwise_cons hbehind hplace
    exact heq.elim hcopy.symm hcopy'.symm
  rw [Disk.read_of_fileLocation? hfile hcontent]
  refine Disk.read_of_writeLocation (hlast.writeLocation_eq_ok_iff.mpr hbackup) ?_
  rw [hkept, hcopied (hown (file, backup) (by simp)), hsame, hcontent]

/-- Two files in one directory, one of them behind a link, a third one that registers nothing, and
one in a directory in which a machine may refuse to replace it. -/
theorem backupsHold_behind_link :
    ∃ disk : Disk, ∃ paths : List Path, disk.WellFormed ∧
      disk.entries = [(["r"], .directory), (["l.js", "r"], .link ⟨"a.js"⟩),
        (["a.js", "r"], .file (.text "NGS.createLoad('a.x', \x7b\x7d)")),
        (["b.js", "r"], .file (.text "NGS.createAction('b.y', \x7b\x7d)")),
        (["c.js", "r"], .file (.text "export default 1;")), (["locked", "r"], .directory),
        (["d.js", "locked", "r"], .file (.text "NGS.createLoad('d.z', \x7b\x7d)"))] ∧
      paths = [⟨"/r/l.js"⟩, ⟨"/r/locked/d.js"⟩, ⟨"/r/b.js"⟩, ⟨"/r/c.js"⟩] ∧
      BackupsApart (writtenPlaces { root := ⟨"/r"⟩ } disk paths) ∧
      (convertBatch { root := ⟨"/r"⟩ } { dryRun := false, backup := true } disk paths
        (.locking [["locked", "r"]])).1.converted = [⟨"/r/l.js"⟩, ⟨"/r/b.js"⟩] ∧
      BackupsHold { root := ⟨"/r"⟩ } disk paths ∧
      BackupsHold { root := ⟨"/r"⟩ } disk paths (.locking [["locked", "r"]]) := by
  refine ⟨⟨[], _⟩, _, ?_, rfl, rfl, ?_, ?_,
    backupsHold_of_apart { root := ⟨"/r"⟩ } Machine.allOrNothing_willing ?_ ?_,
    backupsHold_of_apart { root := ⟨"/r"⟩ } (Machine.allOrNothing_locking _) ?_ ?_⟩ <;>
      decide +kernel

/-- A file that is listed twice is copied a second time when it has been converted already, and
under a link to a file that has been converted, its result is copied. Of two files whose backups
have one name, only the second one's text is kept. -/
theorem repeated_file_loses_original :
    (∃ disk : Disk, disk.WellFormed ∧ disk.entries = [(["r"], .directory),
        (["a.js", "r"], .file (.text "NGS.createLoad('a.x', \x7b\x7d)"))] ∧
      ¬BackupsHold { root := ⟨"/r"⟩ } disk [⟨"/r/a.js"⟩, ⟨"/r/a.js"⟩]) ∧
    (∃ disk : Disk, disk.WellFormed ∧ disk.entries = [(["r"], .directory),
        (["l.js", "r"], .link ⟨"a.js"⟩),
        (["a.js", "r"], .file (.text "NGS.createLoad('a.x', \x7b\x7d)"))] ∧
      ¬BackupsHold { root := ⟨"/r"⟩ } disk [⟨"/r/a.js"⟩, ⟨"/r/l.js"⟩]) ∧
    ∃ disk : Disk, disk.WellFormed ∧ disk.entries = [(["r"], .directory),
        (["a", "r"], .file (.text "NGS.createLoad('a.x', \x7b\x7d)")),
        (["a.", "r"], .file (.text "NGS.createLoad('b.y', \x7b\x7d)"))] ∧
      ¬BackupsHold { root := ⟨"/r"⟩ } disk [⟨"/r/a"⟩, ⟨"/r/a."⟩] := by
  refine ⟨⟨⟨[], _⟩, ?_, rfl, ?_⟩, ⟨⟨[], _⟩, ?_, rfl, ?_⟩, ⟨⟨[], _⟩, ?_, rfl, ?_⟩⟩ <;>
    decide +kernel

end ModuleTree

end Reclass
