import Reclass.Proofs.Batch.Frame
import Mathlib.Data.List.Induction
import Mathlib.Data.List.Nodup

/-!
# Batches and single conversions

A batch computes all results before it writes the first one; converting file by file writes each
result before the next file is read. When no two paths stand for the same file, this makes no
difference, whatever the machine refuses to write. Neither does the order of the files, unless the
machine refuses to replace a file for what has been written before: every file has the outcome that
it has on the disk as it was, and the disk ends up the same.
-/

namespace Reclass

namespace Report

/-- The report of a batch whose outcomes are known. -/
def ofOutcomes (outcomes : List (Path × Except FileError Conversion)) : Report where
  converted := outcomes.filterMap fun
    | (path, .ok (.converted _)) => some path
    | _ => none
  skipped := outcomes.filterMap fun
    | (path, .ok .unchanged) => some path
    | _ => none
  failures := outcomes.filterMap fun
    | (_, .error error) => some error
    | _ => none

variable (outcomes : List (Path × Except FileError Conversion)) (path : Path)

/-- One more error is one more failure in the report. -/
theorem ofOutcomes_concat_error (error : FileError) :
    ofOutcomes (outcomes ++ [(path, .error error)]) = (ofOutcomes outcomes).addFailure error := by
  simp [ofOutcomes, addFailure]

/-- One more text without a registration is one more skipped file in the report. -/
theorem ofOutcomes_concat_unchanged :
    ofOutcomes (outcomes ++ [(path, .ok .unchanged)]) = (ofOutcomes outcomes).addSkipped path := by
  simp [ofOutcomes, addSkipped]

/-- One more result is one more converted file in the report. -/
theorem ofOutcomes_concat_converted (handler : ConvertedHandler) :
    ofOutcomes (outcomes ++ [(path, .ok (.converted handler))]) =
      (ofOutcomes outcomes).addConverted path := by
  simp [ofOutcomes, addConverted]

end Report

namespace Disk

/-- That two disks hold the same everywhere. -/
structure Agrees (first second : Disk) : Prop where
  workingDirectory : first.workingDirectory = second.workingDirectory
  node? : ∀ location, first.node? location = second.node? location

/-- That a disk is another one with some texts written to some locations. -/
structure Overwritten (old : Disk) (writes : Location → String → Prop) (new : Disk) : Prop where
  workingDirectory : new.workingDirectory = old.workingDirectory
  written : ∀ location text, writes location text → new.node? location = some (.file (.text text))
  kept : ∀ location, (∀ text, ¬writes location text) → new.node? location = old.node? location

variable {old new new' : Disk} {writes writes' : Location → String → Prop}

/-- A disk to which nothing is written stays as it is. -/
theorem overwritten_refl (disk : Disk) (h : ∀ location text, ¬writes location text) :
    Overwritten disk writes disk :=
  ⟨rfl, fun location text hwrites => absurd hwrites (h location text), fun _ _ => rfl⟩

/-- What is written decides what a disk becomes. -/
theorem Overwritten.agrees (h : Overwritten old writes new) (h' : Overwritten old writes' new')
    (hwrites : ∀ location text, writes location text ↔ writes' location text) :
    new.Agrees new' := by
  refine ⟨h.workingDirectory.trans h'.workingDirectory.symm, fun location => ?_⟩
  by_cases hwritten : ∃ text, writes location text
  · obtain ⟨text, htext⟩ := hwritten
    rw [h.written location text htext, h'.written location text ((hwrites _ _).mp htext)]
  · push Not at hwritten
    rw [h.kept location hwritten,
      h'.kept location fun text htext => hwritten text ((hwrites _ _).mpr htext)]

/-- Only what is written matters. -/
theorem Overwritten.congr (h : Overwritten old writes new)
    (hwrites : ∀ location text, writes' location text ↔ writes location text) :
    Overwritten old writes' new where
  workingDirectory := h.workingDirectory
  written location text htext := h.written location text ((hwrites location text).mp htext)
  kept location htext :=
    h.kept location fun text hold => htext text ((hwrites location text).mpr hold)

/-- One more text is written to a location to which none has been written. -/
theorem Overwritten.put (h : Overwritten old writes new) {location : Location} {text : String}
    (hroot : location ≠ []) (hnew : ∀ text, ¬writes location text)
    (hwrites : ∀ other text', writes' other text' ↔
      writes other text' ∨ other = location ∧ text' = text) :
    Overwritten old writes' (new.put location (.file (.text text))) := by
  refine ⟨h.workingDirectory, fun other text' hother => ?_, fun other hother => ?_⟩
  · rw [node?_put new hroot]
    rcases (hwrites other text').mp hother with hold | ⟨rfl, rfl⟩
    · have hne : other ≠ location := by
        rintro rfl
        exact hnew text' hold
      rw [if_neg hne, h.written other text' hold]
    · rw [if_pos rfl]
  · have hne : other ≠ location := by
      rintro rfl
      exact hother text ((hwrites other text).mpr (.inr ⟨rfl, rfl⟩))
    rw [node?_put new hroot, if_neg hne]
    exact h.kept other fun text' hold => hother text' ((hwrites other text').mpr (.inl hold))

end Disk

namespace ModuleTree

variable {tree : ModuleTree} {machine : Machine} {options : BatchOptions} {disk new : Disk}
  {paths : List Path} {path : Path}

/-- Converts one more file in place, and keeps its outcome. -/
def convertNext (tree : ModuleTree) (machine : Machine)
    (state : List (Path × Except FileError Conversion) × Disk) (path : Path) :
    List (Path × Except FileError Conversion) × Disk :=
  let rewritten := tree.rewriteFile state.2 path machine
  (state.1 ++ [(path, rewritten.1)], rewritten.2)

/-- Converts files in place, one after the other. The answer is the outcome of each of them, and
the disk after the last one. -/
def convertEach (tree : ModuleTree) (disk : Disk) (paths : List Path)
    (machine : Machine := .willing) : List (Path × Except FileError Conversion) × Disk :=
  paths.foldl (tree.convertNext machine) ([], disk)

/-- The outcome of a file that is converted in place on a disk. -/
def outcome (tree : ModuleTree) (machine : Machine) (disk : Disk) (path : Path) :
    Except FileError Conversion :=
  (tree.rewriteFile disk path machine).1

/-- That one of the paths stands for the file at a location, and its text becomes another one. -/
def Writes (tree : ModuleTree) (machine : Machine) (disk : Disk) (paths : List Path)
    (location : Location) (text : String) : Prop :=
  ∃ path ∈ paths, disk.fileLocation? path = some location ∧
    ∃ handler, tree.outcome machine disk path = .ok (.converted handler) ∧ handler.text = text

/-- What is written for one more path is what is written for its file. -/
theorem writes_concat {location : Location} {text : String} :
    tree.Writes machine disk (paths ++ [path]) location text ↔
      tree.Writes machine disk paths location text ∨ disk.fileLocation? path = some location ∧
        ∃ handler, tree.outcome machine disk path = .ok (.converted handler) ∧
          handler.text = text := by
  simp only [Writes, List.mem_append, List.mem_singleton, or_and_right, exists_or,
    exists_eq_left]

/-- Results are written where files are. -/
theorem rewritten_of_overwritten (h : Disk.Overwritten disk (tree.Writes machine disk paths) new) :
    Disk.Rewritten False disk new := by
  refine ⟨h.workingDirectory, fun location => ?_⟩
  by_cases hwritten : ∃ text, tree.Writes machine disk paths location text
  · obtain ⟨text, htext⟩ := hwritten
    obtain ⟨path, _, hfile, _⟩ := id htext
    obtain ⟨content, hnode⟩ := Disk.node?_fileLocation? hfile
    rw [h.written location text htext, hnode]
    exact .file content (.text text)
  · push Not at hwritten
    rw [h.kept location hwritten]
    exact .same _

section Concat

variable (hfiles : ((paths ++ [path]).filterMap disk.fileLocation?).Nodup)

include hfiles

/-- The paths before a further one stand for different files as well. -/
private theorem nodup_of_concat : (paths.filterMap disk.fileLocation?).Nodup := by
  rw [List.filterMap_append] at hfiles
  exact hfiles.of_append_left

variable {location : Location} (hfile : disk.fileLocation? path = some location)

include hfile

/-- The file of a further path is not that of a path before it. -/
private theorem notMem_of_nodup : location ∉ paths.filterMap disk.fileLocation? := by
  intro hmem
  rw [List.filterMap_append, List.nodup_append] at hfiles
  exact hfiles.2.2 location hmem location
    (List.mem_filterMap.mpr ⟨path, List.mem_singleton.mpr rfl, hfile⟩) rfl

/-- The file of a further path has not been written yet. -/
private theorem not_writes_of_nodup (text : String) :
    ¬tree.Writes machine disk paths location text := by
  rintro ⟨other, hother, hlocation, _⟩
  exact notMem_of_nodup hfiles hfile (List.mem_filterMap.mpr ⟨other, hother, hlocation⟩)

end Concat

/-! ### One file in place -/

/-- A file without a result is not written. -/
theorem rewriteFile_of_not_converted
    (h : ∀ handler, tree.convertText disk path ≠ .ok (.converted handler)) :
    tree.rewriteFile disk path machine = (tree.convertText disk path, disk) := by
  rw [rewriteFile]
  match hresult : tree.convertText disk path with
  | .error error => rfl
  | .ok .unchanged => rfl
  | .ok (.converted handler) => exact absurd hresult (h handler)

section Converted

variable {handler : ConvertedHandler} {location : Location}
  (hresult : tree.convertText disk path = .ok (.converted handler))
  (hfile : disk.fileLocation? path = some location)

include hresult hfile

/-- A file is converted when it can be replaced. -/
theorem rewriteFile_of_replaced {after : Disk}
    (hreplaced : disk.replaceAt machine location handler.text = (.ok (), after)) :
    tree.rewriteFile disk path machine = (.ok (.converted handler), after) := by
  simp only [rewriteFile, hresult, Disk.writeResult_plain hfile, hreplaced]

/-- A file fails when it cannot be replaced. -/
theorem rewriteFile_of_refused {fault : IoFault} {after : Disk}
    (hrefused : disk.replaceAt machine location handler.text = (.error fault, after)) :
    tree.rewriteFile disk path machine = (.error (.io path fault), after) := by
  simp only [rewriteFile, hresult, Disk.writeResult_plain hfile, hrefused]

end Converted

/-- Without backups, a file has the outcome in a batch that it has when it is converted in place. -/
theorem commit_eq_rewriteFile (outcomes : List (Path × Except FileError Conversion)) :
    Report.commit machine {} (.ofOutcomes outcomes, disk) (path, tree.convertText disk path) =
      (.ofOutcomes (outcomes ++ [(path, (tree.rewriteFile disk path machine).1)]),
        (tree.rewriteFile disk path machine).2) := by
  rw [rewriteFile]
  match tree.convertText disk path with
  | .error error =>
    rw [Report.ofOutcomes_concat_error]
    rfl
  | .ok .unchanged =>
    rw [Report.ofOutcomes_concat_unchanged]
    rfl
  | .ok (.converted handler) =>
    match hwrite : disk.writeResult false path handler.text machine with
    | (.ok (), after) =>
      simp [Report.commit, hwrite, Report.ofOutcomes_concat_converted]
    | (.error fault, after) =>
      simp [Report.commit, hwrite, Report.ofOutcomes_concat_error]

/-- A file that is as it was on another disk becomes what it would have become there, and nothing
but the file is written. -/
private theorem rewriteFile_of_kept (hwhole : machine.AllOrNothing)
    (h : Disk.Rewritten False disk new)
    (hkept : ∀ location, disk.fileLocation? path = some location →
      new.node? location = disk.node? location) :
    tree.convertText new path = tree.convertText disk path ∧
      Disk.Rewritten False new (tree.rewriteFile new path machine).2 ∧
      Disk.AgreesOutside (disk.fileLocation? path = some ·) new
        (tree.rewriteFile new path machine).2 := by
  have htext : tree.convertText new path = tree.convertText disk path :=
    convertText_rewritten h hkept
  refine ⟨htext, ?_⟩
  by_cases hnot : ∀ handler, tree.convertText new path ≠ .ok (.converted handler)
  · rw [rewriteFile_of_not_converted hnot]
    exact ⟨.refl new, Disk.agreesOutside_refl new⟩
  push Not at hnot
  obtain ⟨handler, hresult⟩ := hnot
  obtain ⟨location, _, hfile, _⟩ := exists_fileLocation?_of_convertText (htext.symm.trans hresult)
  have hnow := h.fileLocation? hfile
  rcases Disk.replaceAt_cases hwhole new location handler.text with hok | ⟨fault, herror⟩
  · rw [rewriteFile_of_replaced hresult hnow hok]
    refine ⟨(Disk.Rewritten.refl new).put (.inl (Disk.node?_fileLocation? hnow)),
      fun other hout => ?_⟩
    have hne : other ≠ location := by
      rintro rfl
      exact hout hfile
    rw [Disk.node?_put new (Disk.isFree_of_fileLocation? hnow).ne_nil, if_neg hne]
  · rw [rewriteFile_of_refused hresult hnow herror]
    exact ⟨.refl new, Disk.agreesOutside_refl new⟩

/-! ### A run of files -/

/-- One more file is converted in place behind the others. -/
theorem convertEach_concat (tree : ModuleTree) (disk : Disk) (paths : List Path) (path : Path) :
    tree.convertEach disk (paths ++ [path]) machine =
      tree.convertNext machine (tree.convertEach disk paths machine) path := by
  rw [convertEach, List.foldl_append]
  rfl

/-- One more file is committed behind the others. -/
theorem convertBatch_concat (tree : ModuleTree) (disk : Disk) (paths : List Path) (path : Path) :
    tree.convertBatch options disk (paths ++ [path]) machine =
      Report.commit machine options (tree.convertBatch options disk paths machine)
        (path, tree.convertText disk path) := by
  simp only [convertBatch, List.map_append, List.foldl_append]
  rfl

/-- A further file has the outcome that it has on the disk as it was, and its result is written
beside those before it. -/
private theorem rewriteFile_of_overwritten (hwhole : machine.AllOrNothing)
    (hreplaces : machine.ReplacesLocally)
    (h : Disk.Overwritten disk (tree.Writes machine disk paths) new)
    (hfiles : ((paths ++ [path]).filterMap disk.fileLocation?).Nodup) :
    (tree.rewriteFile new path machine).1 = tree.outcome machine disk path ∧
      Disk.Overwritten disk (tree.Writes machine disk (paths ++ [path]))
        (tree.rewriteFile new path machine).2 := by
  have hrewritten := rewritten_of_overwritten h
  have htext : tree.convertText new path = tree.convertText disk path :=
    convertText_rewritten hrewritten fun location hfile =>
      h.kept location (not_writes_of_nodup hfiles hfile)
  -- without a result that replaces the file, nothing is written
  have hkeep (hnot : ∀ handler, tree.outcome machine disk path ≠ .ok (.converted handler)) :
      Disk.Overwritten disk (tree.Writes machine disk (paths ++ [path])) new := by
    refine h.congr fun location text => ?_
    rw [writes_concat, or_iff_left]
    rintro ⟨_, handler, hconverted, _⟩
    exact hnot handler hconverted
  by_cases hnot : ∀ handler, tree.convertText disk path ≠ .ok (.converted handler)
  · have hnow : tree.rewriteFile new path machine = (tree.convertText new path, new) :=
      rewriteFile_of_not_converted (htext.symm ▸ hnot)
    have hthen : tree.rewriteFile disk path machine = (tree.convertText disk path, disk) :=
      rewriteFile_of_not_converted hnot
    rw [outcome, hnow, hthen]
    exact ⟨htext, hkeep (by rwa [outcome, hthen])⟩
  push Not at hnot
  obtain ⟨handler, hresult⟩ := hnot
  obtain ⟨location, _, hfile, _⟩ := exists_fileLocation?_of_convertText hresult
  have hnow := hrewritten.fileLocation? hfile
  have hfresh : ∀ text, ¬tree.Writes machine disk paths location text :=
    not_writes_of_nodup hfiles hfile
  rcases Disk.replaceAt_both_cases hwhole hreplaces hrewritten.grow (h.kept location hfresh)
    handler.text with ⟨hold, hnew⟩ | ⟨fault, hold, hnew⟩
  · have houtcome : tree.outcome machine disk path = .ok (.converted handler) := by
      rw [outcome, rewriteFile_of_replaced hresult hfile hold]
    rw [houtcome, rewriteFile_of_replaced (htext.trans hresult) hnow hnew]
    refine ⟨rfl, h.put (Disk.isFree_of_fileLocation? hnow).ne_nil hfresh fun other text => ?_⟩
    rw [writes_concat, hfile, houtcome]
    refine or_congr_right ?_
    simp only [Option.some.injEq, Except.ok.injEq, Conversion.converted.injEq, exists_eq_left',
      eq_comm]
  · have houtcome : tree.outcome machine disk path = .error (.io path fault) := by
      rw [outcome, rewriteFile_of_refused hresult hfile hold]
    rw [houtcome, rewriteFile_of_refused (htext.trans hresult) hnow hnew]
    exact ⟨rfl, hkeep (by simp [houtcome])⟩

section Run

variable (tree : ModuleTree) (hwhole : machine.AllOrNothing) (disk : Disk) (paths : List Path)
  (hfiles : (paths.filterMap disk.fileLocation?).Nodup)

include hwhole hfiles

/-- A batch does to its files what is done to them one after the other, and only to them. -/
theorem convertBatch_eq_convertEach :
    tree.convertBatch {} disk paths machine =
        (.ofOutcomes (tree.convertEach disk paths machine).1,
          (tree.convertEach disk paths machine).2) ∧
      Disk.Rewritten False disk (tree.convertEach disk paths machine).2 ∧
      Disk.AgreesOutside (· ∈ paths.filterMap disk.fileLocation?) disk
        (tree.convertEach disk paths machine).2 := by
  induction paths using List.reverseRecOn with
  | nil => exact ⟨rfl, .refl disk, Disk.agreesOutside_refl disk⟩
  | append_singleton paths path ih =>
    obtain ⟨hbatch, hrewritten, hagrees⟩ := ih (nodup_of_concat hfiles)
    obtain ⟨htext, hnext, hfile⟩ := rewriteFile_of_kept hwhole hrewritten
      fun location hlocation => hagrees location (notMem_of_nodup hfiles hlocation)
    rw [convertBatch_concat, hbatch, ← htext, commit_eq_rewriteFile, convertEach_concat]
    refine ⟨rfl, hrewritten.trans hnext, (hagrees.mono ?_).trans (hfile.mono ?_)⟩
    · intro location hmem
      rw [List.filterMap_append]
      exact List.mem_append_left _ hmem
    · intro location hlocation
      exact List.mem_filterMap.mpr ⟨path, by simp, hlocation⟩

/-- File by file, every file has the outcome that it has on the disk as it was, and all results are
written that can be. -/
theorem convertEach_eq (hreplaces : machine.ReplacesLocally) :
    (tree.convertEach disk paths machine).1 =
        paths.map (fun path => (path, tree.outcome machine disk path)) ∧
      Disk.Overwritten disk (tree.Writes machine disk paths)
        (tree.convertEach disk paths machine).2 := by
  induction paths using List.reverseRecOn with
  | nil => exact ⟨rfl, Disk.overwritten_refl disk (by simp [Writes])⟩
  | append_singleton paths path ih =>
    obtain ⟨houtcomes, hdisk⟩ := ih (nodup_of_concat hfiles)
    obtain ⟨hnext, hafter⟩ := rewriteFile_of_overwritten hwhole hreplaces hdisk hfiles
    rw [convertEach_concat, convertNext, houtcomes, hnext, List.map_append]
    exact ⟨rfl, hafter⟩

end Run

/-- When no two paths stand for the same file, a batch that writes without backups does to its files
what converting them in place does, one after the other: they have the same outcomes, and the disk
is the same after it. When the machine does not refuse a file for what other files hold, every file
has the outcome that it has on the disk as it was, and so the files may be taken in any order. -/
theorem convertEach_agrees_convertBatch (tree : ModuleTree) (hwhole : machine.AllOrNothing)
    (disk : Disk) {paths : List Path} (hfiles : (paths.filterMap disk.fileLocation?).Nodup) :
    tree.convertBatch { dryRun := false, backup := false } disk paths machine =
        (.ofOutcomes (tree.convertEach disk paths machine).1,
          (tree.convertEach disk paths machine).2) ∧
      (machine.ReplacesLocally →
        (tree.convertBatch { dryRun := false, backup := false } disk paths machine).1 =
            .ofOutcomes (paths.map fun path => (path, tree.outcome machine disk path)) ∧
          ∀ order : List Path, order.Perm paths →
            (tree.convertEach disk order machine).1 =
                order.map (fun path => (path, tree.outcome machine disk path)) ∧
              (tree.convertEach disk order machine).2.Agrees
                (tree.convertBatch { dryRun := false, backup := false } disk paths machine).2) := by
  have hbatch : tree.convertBatch {} disk paths machine = _ :=
    (convertBatch_eq_convertEach tree hwhole disk paths hfiles).1
  refine ⟨hbatch, fun hreplaces => ?_⟩
  obtain ⟨houtcomes, hdisk⟩ := convertEach_eq tree hwhole disk paths hfiles hreplaces
  rw [hbatch, houtcomes]
  refine ⟨rfl, fun order horder => ?_⟩
  have hfiles' : (order.filterMap disk.fileLocation?).Nodup :=
    ((horder.filterMap disk.fileLocation?).nodup_iff).mpr hfiles
  obtain ⟨houtcomes', hdisk'⟩ := convertEach_eq tree hwhole disk order hfiles' hreplaces
  refine ⟨houtcomes', hdisk'.agrees hdisk fun location text => ?_⟩
  simp only [Writes, horder.mem_iff]

/-- A file behind a link, another file, one that registers nothing, one that is missing twice, and
one that cannot be replaced in its directory, converted as a batch and one by one from the last to
the first. -/
theorem convertEach_reverse_agrees_convertBatch :
    ∃ disk : Disk, ∃ paths : List Path,
      disk.entries = [(["r"], .directory), (["a.js", "r"], .link ⟨"x/a.js"⟩),
        (["x", "r"], .directory),
        (["a.js", "x", "r"], .file (.text "NGS.createLoad('a.x', \x7b\x7d)")),
        (["b.js", "r"], .file (.text "NGS.createAction('b.y', \x7b\x7d)")),
        (["c.js", "r"], .file (.text "export default 1;")), (["locked", "r"], .directory),
        (["d.js", "locked", "r"], .file (.text "NGS.createLoad('d.z', \x7b\x7d)"))] ∧
      paths = [⟨"/r/a.js"⟩, ⟨"/r/gone.js"⟩, ⟨"/r/locked/d.js"⟩, ⟨"/r/b.js"⟩, ⟨"/r/c.js"⟩,
        ⟨"/r/gone.js"⟩] ∧
      (convertBatch { root := ⟨"/r"⟩ } { dryRun := false, backup := false } disk paths
          (.locking [["locked", "r"]])).1 =
        { converted := [⟨"/r/a.js"⟩, ⟨"/r/b.js"⟩], skipped := [⟨"/r/c.js"⟩],
          failures := [.io ⟨"/r/gone.js"⟩ .notFound, .io ⟨"/r/locked/d.js"⟩ .permissionDenied,
            .io ⟨"/r/gone.js"⟩ .notFound] } ∧
      convertBatch { root := ⟨"/r"⟩ } { dryRun := false, backup := false } disk paths
          (.locking [["locked", "r"]]) =
        (.ofOutcomes (convertEach { root := ⟨"/r"⟩ } disk paths (.locking [["locked", "r"]])).1,
          (convertEach { root := ⟨"/r"⟩ } disk paths (.locking [["locked", "r"]])).2) ∧
      (convertEach { root := ⟨"/r"⟩ } disk paths.reverse (.locking [["locked", "r"]])).1 =
        paths.reverse.map (fun path =>
          (path, outcome { root := ⟨"/r"⟩ } (.locking [["locked", "r"]]) disk path)) ∧
      (convertEach { root := ⟨"/r"⟩ } disk paths.reverse (.locking [["locked", "r"]])).2.Agrees
        (convertBatch { root := ⟨"/r"⟩ } { dryRun := false, backup := false } disk paths
          (.locking [["locked", "r"]])).2 := by
  refine ⟨⟨[], _⟩, _, rfl, rfl, by decide +kernel, ?_⟩
  refine (convertEach_agrees_convertBatch { root := ⟨"/r"⟩ } (Machine.allOrNothing_locking _) _
    (by decide +kernel)).imp_right fun hlocal => ?_
  exact (hlocal (Machine.replacesLocally_locking _)).2 _ (List.reverse_perm _)

end ModuleTree

end Reclass
