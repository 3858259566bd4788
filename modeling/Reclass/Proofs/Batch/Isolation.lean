import Reclass.Proofs.Batch.Frame
import Reclass.Proofs.Disk.Difference
import Mathlib.Data.List.Forall2

/-!
# Files of a batch have no part in each other

A file for which nothing is written might as well not be listed: the disk becomes the same without
it, and the other files are recorded as they are with it. When a result is not written although its
backup was, the disk differs in the place of the backup, and in no other place as long as no file
behind it is read from there or copied to there.
-/

namespace Reclass

/-- That two errors differ at most in the fault with which a file could not be read or written. -/
inductive FileError.Alike : FileError → FileError → Prop
  | same (error : FileError) : Alike error error
  | fault (path : Path) (fault fault' : IoFault) : Alike (.io path fault) (.io path fault')

namespace Report

/-- That two reports differ at most in the faults with which files could not be read or written. -/
structure Alike (report other : Report) : Prop where
  converted : report.converted = other.converted
  skipped : report.skipped = other.skipped
  failures : List.Forall₂ FileError.Alike report.failures other.failures

variable {report other report' other' : Report}

/-- A report says the same as itself. -/
theorem alike_refl (report : Report) : report.Alike report :=
  ⟨rfl, rfl, List.forall₂_same.mpr fun error _ => .same error⟩

/-- Reports that say the same still do so when more is added that says the same. -/
theorem Alike.merge (h : report.Alike other) (h' : report'.Alike other') :
    (report.merge report').Alike (other.merge other') where
  converted := by simp only [Report.merge, h.converted, h'.converted]
  skipped := by simp only [Report.merge, h.skipped, h'.skipped]
  failures := List.rel_append h.failures h'.failures

end Report

namespace ModuleTree

/-- What becomes of a file between others in a batch: `record` is recorded for it, and `others` for
the files behind it. -/
structure Parted (tree : ModuleTree) (machine : Machine) (options : BatchOptions) (disk : Disk)
    (before : List Path) (path : Path) (behind : List Path) (record others : Report) : Prop where
  own : record.Accounts [path]
  noResult : tree.hasResult disk path = false → record.converted = []
  /-- The file adds its record to that of the files before it, and writes no more than that says. -/
  upTo : (tree.convertBatch options disk (before ++ [path]) machine).1 =
    (tree.convertBatch options disk before machine).1.merge record
  frame : Disk.AgreesOutside (tree.MayWrite options disk [path] record)
    (tree.convertBatch options disk before machine).2
    (tree.convertBatch options disk (before ++ [path]) machine).2
  /-- The files behind it are all recorded, and from what has been computed for them. -/
  whole : (tree.convertBatch options disk (before ++ path :: behind) machine).1 =
    ((tree.convertBatch options disk before machine).1.merge record).merge others
  rest : others.Accounts behind
  foretold : tree.Foretells disk
    (tree.convertBatch { dryRun := true } disk behind machine).1 others
  /-- A file that is not converted, and has no backup, might as well not be listed. -/
  absent : record.converted = [] →
    (∀ place, ¬tree.MayWrite options disk [path] record place) →
      tree.convertBatch options disk (before ++ behind) machine =
        ((tree.convertBatch options disk before machine).1.merge others,
          (tree.convertBatch options disk (before ++ path :: behind) machine).2)
  /-- A file that is not converted leaves at most its backup behind, and has no other part in what
  becomes of files that are neither found nor kept at the place of the backup. -/
  spoiled : record.converted = [] → ∀ place, disk.writeLocation path.backup = .ok place →
    machine.CopiesLocally → machine.ReplacesLocally →
      (∀ other ∈ behind, tree.hasResult disk other = true →
        disk.fileLocation? other ≠ some place ∧ disk.writeLocation other.backup ≠ .ok place) →
      ∃ others', others'.Alike others ∧
        (tree.convertBatch options disk (before ++ behind) machine).1 =
          (tree.convertBatch options disk before machine).1.merge others' ∧
        ∀ location, location ≠ place →
          (tree.convertBatch options disk (before ++ path :: behind) machine).2.node? location =
            (tree.convertBatch options disk (before ++ behind) machine).2.node? location

variable {tree : ModuleTree} {machine : Machine} {options : BatchOptions}
  {disk old new mid mid' last last' : Disk} {path : Path} {paths : List Path}
  {record record' : Report} {records records' : List Report} {spoiled : Location}

/-! ### Turns on disks that differ in one place -/

section Differing

variable (hwhole : machine.AllOrNothing) (hcopies : machine.CopiesLocally)
  (hreplaces : machine.ReplacesLocally) (hdisk : disk.WellFormed)

include hwhole hcopies hreplaces hdisk

/-- A file that is neither found nor kept where two disks differ has the same turn on both. -/
theorem Turn.differsAt (hold : Disk.Rewritten True disk old) (h : Disk.DiffersAt spoiled old new)
    (hapart : tree.hasResult disk path = true →
      disk.fileLocation? path ≠ some spoiled ∧ disk.writeLocation path.backup ≠ .ok spoiled)
    (hturn : Turn tree machine options disk old path record mid)
    (hturn' : Turn tree machine options disk new path record' mid') :
    record.Alike record' ∧ Disk.DiffersAt spoiled mid mid' := by
  match hresult : tree.convertText disk path with
  | .error error =>
    obtain ⟨rfl, rfl⟩ := hturn.of_error hresult
    obtain ⟨rfl, rfl⟩ := hturn'.of_error hresult
    exact ⟨Report.alike_refl _, h⟩
  | .ok .unchanged =>
    obtain ⟨rfl, rfl⟩ := hturn.of_unchanged hresult
    obtain ⟨rfl, rfl⟩ := hturn'.of_unchanged hresult
    exact ⟨Report.alike_refl _, h⟩
  | .ok (.converted handler) =>
    cases hdry : options.dryRun with
    | true =>
      obtain ⟨rfl, rfl⟩ := hturn.of_converted_dry hresult hdry
      obtain ⟨rfl, rfl⟩ := hturn'.of_converted_dry hresult hdry
      exact ⟨Report.alike_refl _, h⟩
    | false =>
      obtain ⟨hfileNe, hplaceNe⟩ := hapart (hasResult_of_converted hresult)
      obtain ⟨file, _, hfile, _⟩ := exists_fileLocation?_of_convertText hresult
      have hlocation : file ≠ spoiled := by
        rintro rfl
        exact hfileNe hfile
      have hbackup : options.backup = true → ∀ place, old.writeLocation path.backup = .ok place →
          place ≠ spoiled ∧ old.IsFree place := by
        intro _ place hplace
        have hstart := hold.writeLocation_eq_ok_iff.mp hplace
        refine ⟨?_, hold.isFree (hdisk.node?_writeLocation hstart)⟩
        rintro rfl
        exact hplaceNe hstart
      obtain ⟨hanswer, hdiffers⟩ := h.writeResult hwhole hcopies hreplaces
        (hold.fileLocation? hfile) hlocation options.backup hbackup handler.text
      obtain ⟨rfl, hwrite⟩ | ⟨fault, rfl, hwrite⟩ := hturn.of_converted_real hresult hdry <;>
        obtain ⟨rfl, hwrite'⟩ | ⟨fault', rfl, hwrite'⟩ :=
          hturn'.of_converted_real hresult hdry <;>
        rw [hwrite, hwrite'] at hanswer hdiffers
      · exact ⟨Report.alike_refl _, hdiffers⟩
      · cases hanswer
      · cases hanswer
      · exact ⟨⟨rfl, rfl, .cons (.fault path fault fault') .nil⟩, hdiffers⟩

/-- Files that are neither found nor kept where two disks differ have the same turns on both. -/
theorem Turns.differsAt (hold : Disk.Rewritten True disk old) (h : Disk.DiffersAt spoiled old new)
    (hapart : ∀ path ∈ paths, tree.hasResult disk path = true →
      disk.fileLocation? path ≠ some spoiled ∧ disk.writeLocation path.backup ≠ .ok spoiled)
    (hturns : Turns tree machine options disk old paths records last)
    (hturns' : Turns tree machine options disk new paths records' last') :
    (Report.mergeAll records).Alike (.mergeAll records') ∧ Disk.DiffersAt spoiled last last' := by
  induction hturns generalizing new records' with
  | nil =>
    cases hturns'
    exact ⟨Report.alike_refl _, h⟩
  | cons hturn _ ih =>
    cases hturns' with
    | cons hturn' hrest' =>
      rw [List.forall_mem_cons] at hapart
      obtain ⟨hrecord, hmid⟩ :=
        hturn.differsAt hwhole hcopies hreplaces hdisk hold h hapart.1 hturn'
      have hrewritten := hold.trans (hturn.framed hwhole hdisk hold).1
      obtain ⟨hrecords, hlast⟩ := ih hrewritten hmid hapart.2 hrest'
      exact ⟨hrecord.merge hrecords, hlast⟩

end Differing

/-- A file that is not converted leaves the disk as it was but for the place of its backup. -/
theorem Turn.differsAt_of_not_converted (hwhole : machine.AllOrNothing) (hdisk : disk.WellFormed)
    (hold : Disk.Rewritten True disk old)
    (h : Turn tree machine options disk old path record mid) (hrecord : record.converted = [])
    (hplace : disk.writeLocation path.backup = .ok spoiled) : Disk.DiffersAt spoiled old mid := by
  obtain ⟨hrewritten, hagrees⟩ := h.framed hwhole hdisk hold
  refine ⟨hrewritten, fun location hne => hagrees location ?_⟩
  rintro (⟨hmem, _⟩ | ⟨_, hmem, _, hother⟩)
  · rw [hrecord] at hmem
    cases hmem
  · rw [List.mem_singleton.mp hmem, hplace] at hother
    exact hne (Except.ok.inj hother).symm

/-! ### Whole batches -/

/-- Every file of a batch has a part of its own in it. -/
theorem exists_parted (tree : ModuleTree) (options : BatchOptions) (hwhole : machine.AllOrNothing)
    (hdisk : disk.WellFormed) (before : List Path) (path : Path) (behind : List Path) :
    ∃ record others, tree.Parted machine options disk before path behind record others := by
  obtain ⟨records, last, hturns⟩ :=
    exists_turns tree machine options disk disk (before ++ path :: behind)
  obtain ⟨mid, first, second, rfl, hfirst, hsecond⟩ := hturns.of_append
  cases hsecond with
  | @cons _ after _ _ _ record rest hturn hbehind =>
    have hnew := (hfirst.framed hwhole hdisk (.refl disk)).1
    have hupTo := hfirst.append (.cons hturn (.nil after))
    refine ⟨record, .mergeAll rest, ?_⟩
    constructor
    case own => exact hturn.accounts
    case noResult => exact hturn.converted_eq_nil
    case upTo =>
      rw [hupTo.convertBatch_eq, hfirst.convertBatch_eq]
      simp
    case frame =>
      rw [hupTo.convertBatch_eq, hfirst.convertBatch_eq]
      exact (hturn.framed hwhole hdisk hnew).2
    case whole =>
      rw [hturns.convertBatch_eq, hfirst.convertBatch_eq, Report.mergeAll_append,
        Report.mergeAll_cons, Report.merge_assoc]
    case rest => exact hbehind.accounts
    case foretold =>
      obtain ⟨records, last, hdry⟩ := exists_turns tree machine { dryRun := true } disk disk behind
      rw [hdry.convertBatch_eq]
      exact hdry.foretells rfl hbehind
    case absent =>
      intro hrecord hnothing
      obtain rfl := hturn.eq_of_mayWrite_nothing hwhole hdisk hnew hrecord hnothing
      rw [(hfirst.append hbehind).convertBatch_eq, hturns.convertBatch_eq, hfirst.convertBatch_eq,
        Report.mergeAll_append]
    case spoiled =>
      intro hrecord place hplace hcopies hreplaces hapart
      have hdiffers := hturn.differsAt_of_not_converted hwhole hdisk hnew hrecord hplace
      obtain ⟨records', last', hwithout⟩ := exists_turns tree machine options disk mid behind
      obtain ⟨halike, hlast⟩ := hwithout.differsAt hwhole hcopies hreplaces hdisk hnew hdiffers
        hapart hbehind
      rw [(hfirst.append hwithout).convertBatch_eq, hturns.convertBatch_eq, hfirst.convertBatch_eq,
        Report.mergeAll_append]
      exact ⟨_, halike, rfl, hlast.agrees⟩

/-- Whatever happens to the files of a batch, only the converted ones are written, and the backups
of files with a result; links stay links, and a dry run changes nothing. A file for which nothing is
written, because it is skipped, cannot be read, has no result or because the machine refuses, does
not change the disk, and has no part in what becomes of the others. When only its backup is written,
this is all that changes. -/
theorem convertBatch_framed (tree : ModuleTree) (options : BatchOptions)
    (hwhole : machine.AllOrNothing) (hdisk : disk.WellFormed) (paths : List Path) :
    tree.Framed options disk paths (tree.convertBatch options disk paths machine).1
        (tree.convertBatch options disk paths machine).2 ∧
      ∀ before path behind,
        ∃ record others, tree.Parted machine options disk before path behind record others :=
  ⟨framed_convertBatch tree options hwhole hdisk paths, exists_parted tree options hwhole hdisk⟩

/-- Two files that are converted, the first one behind a link, and between them one that registers
nothing, one that is malformed, one that is missing, one that is outside of the root, one whose
backup cannot be written, and one behind a link into a directory in which no file can be replaced.
The last one leaves a backup of what it still holds. -/
theorem mixed_batch_framed :
    ∃ disk : Disk, ∃ paths : List Path, disk.WellFormed ∧
      disk.entries = [(["r"], .directory), (["l.js", "r"], .link ⟨"a.js"⟩),
        (["a.js", "r"], .file (.text "NGS.createLoad('a.x', \x7b\x7d)")),
        (["b.js", "r"], .file (.text "export default 1;")),
        (["c.js", "r"], .file (.text "NGS.createLoad('c.z', \x7b")),
        (["e.js"], .file (.text "NGS.createLoad('e.v', \x7b\x7d)")),
        (["d.js", "r"], .file (.text "NGS.createLoad('d.w', \x7b\x7d)")),
        (["d.js.backup", "r"], .directory),
        (["k.js", "r"], .link ⟨"/locked/k.js"⟩), (["locked"], .directory),
        (["k.js", "locked"], .file (.text "NGS.createLoad('k.t', \x7b\x7d)")),
        (["f.js", "r"], .file (.text "NGS.createAction('f.u', \x7b\x7d)"))] ∧
      paths = [⟨"/r/l.js"⟩, ⟨"/r/b.js"⟩, ⟨"/r/c.js"⟩, ⟨"/r/gone.js"⟩, ⟨"/e.js"⟩, ⟨"/r/d.js"⟩,
        ⟨"/r/k.js"⟩, ⟨"/r/f.js"⟩] ∧
      (convertBatch { root := ⟨"/r"⟩ } { backup := true } disk paths (.locking [["locked"]])).1 =
        { converted := [⟨"/r/l.js"⟩, ⟨"/r/f.js"⟩], skipped := [⟨"/r/b.js"⟩],
          failures := [.malformed ⟨"/r/c.js"⟩ ⟨1, 23⟩ "unclosed delimiter",
            .io ⟨"/r/gone.js"⟩ .notFound, .outsideRoot ⟨"/e.js"⟩ ⟨"/r"⟩,
            .io ⟨"/r/d.js"⟩ .isADirectory, .io ⟨"/r/k.js"⟩ .permissionDenied] } ∧
      (∀ location ∈ [["k.js", "locked"], ["k.js.backup", "r"]],
        (convertBatch { root := ⟨"/r"⟩ } { backup := true } disk paths
          (.locking [["locked"]])).2.node? location =
            some (.file (.text "NGS.createLoad('k.t', \x7b\x7d)"))) ∧
      (Machine.locking [["locked"]]).CopiesLocally ∧
      (Machine.locking [["locked"]]).ReplacesLocally ∧
      Framed { root := ⟨"/r"⟩ } { backup := true } disk paths
        (convertBatch { root := ⟨"/r"⟩ } { backup := true } disk paths (.locking [["locked"]])).1
        (convertBatch { root := ⟨"/r"⟩ } { backup := true } disk paths (.locking [["locked"]])).2 ∧
      ∀ before path behind, ∃ record others,
        Parted { root := ⟨"/r"⟩ } (.locking [["locked"]]) { backup := true } disk before path behind
          record others := by
  refine ⟨⟨[], _⟩, _, ?_, rfl, rfl, ?_, ?_, Machine.copiesLocally_locking _,
    Machine.replacesLocally_locking _, convertBatch_framed { root := ⟨"/r"⟩ } _
      (Machine.allOrNothing_locking _) ?_ _⟩ <;> decide +kernel

end ModuleTree

end Reclass
