import Reclass.Batch
import Reclass.Proofs.Module.Files

/-!
# The turns of a batch

When the results of a batch have been computed, each file has its turn: it is recorded, and its
result may be written. What a turn does is said once here, by one case for each way in which it can
end; a batch is the run of the turns of its files.
-/

namespace Reclass

namespace Report

/-- The outcomes of many batches, one behind the other. -/
def mergeAll (reports : List Report) : Report := reports.foldr merge {}

variable (report other : Report) (reports reports' : List Report)

/-- Nothing is recorded behind a report by an empty one. -/
@[simp] theorem merge_empty : report.merge {} = report := by simp [merge]

/-- Nothing is recorded before a report by an empty one. -/
@[simp] theorem empty_merge : merge {} report = report := by simp [merge]

/-- Reports are put one behind the other in any grouping. -/
theorem merge_assoc (last : Report) :
    (report.merge other).merge last = report.merge (other.merge last) := by
  simp [merge]

/-- No batches have an empty report. -/
@[simp] theorem mergeAll_nil : mergeAll [] = {} := rfl

/-- The report of the first batch stands before those of the others. -/
@[simp] theorem mergeAll_cons : mergeAll (report :: reports) = report.merge (mergeAll reports) :=
  rfl

/-- The reports of some batches stand before those of later ones. -/
@[simp] theorem mergeAll_append :
    mergeAll (reports ++ reports') = (mergeAll reports).merge (mergeAll reports') := by
  induction reports with
  | nil => simp
  | cons report reports ih => simp [ih, merge_assoc]

end Report

namespace ModuleTree

/-- Whether a file has a result that can be written. -/
def hasResult (tree : ModuleTree) (disk : Disk) (path : Path) : Bool :=
  match tree.convertText disk path with
  | .ok (.converted _) => true
  | _ => false

/-- How the turn of a file may end on the disk `new`, with what it records and the disk after it.
The results have been computed on `disk`. -/
inductive Turn (tree : ModuleTree) (machine : Machine) (options : BatchOptions) (disk new : Disk)
    (path : Path) : Report → Disk → Prop
  | failed {error : FileError} (hresult : tree.convertText disk path = .error error) :
      Turn tree machine options disk new path { failures := [error] } new
  | skipped (hresult : tree.convertText disk path = .ok .unchanged) :
      Turn tree machine options disk new path { skipped := [path] } new
  | announced {handler : ConvertedHandler}
      (hresult : tree.convertText disk path = .ok (.converted handler))
      (hdry : options.dryRun = true) :
      Turn tree machine options disk new path { converted := [path] } new
  | written {handler : ConvertedHandler} {after : Disk}
      (hresult : tree.convertText disk path = .ok (.converted handler))
      (hdry : options.dryRun = false)
      (hwrite : new.writeResult options.backup path handler.text machine = (.ok (), after)) :
      Turn tree machine options disk new path { converted := [path] } after
  | notWritten {handler : ConvertedHandler} {fault : IoFault} {after : Disk}
      (hresult : tree.convertText disk path = .ok (.converted handler))
      (hdry : options.dryRun = false)
      (hwrite : new.writeResult options.backup path handler.text machine = (.error fault, after)) :
      Turn tree machine options disk new path { failures := [.io path fault] } after

/-- The turns of some files, one after the other. -/
inductive Turns (tree : ModuleTree) (machine : Machine) (options : BatchOptions) (disk : Disk) :
    Disk → List Path → List Report → Disk → Prop
  | nil (new : Disk) : Turns tree machine options disk new [] [] new
  | cons {new mid last : Disk} {path : Path} {paths : List Path} {record : Report}
      {records : List Report} (hturn : Turn tree machine options disk new path record mid)
      (hturns : Turns tree machine options disk mid paths records last) :
      Turns tree machine options disk new (path :: paths) (record :: records) last

variable {tree : ModuleTree} {machine : Machine} {options : BatchOptions}
  {disk new mid last : Disk} {path : Path} {paths paths' : List Path} {record : Report}
  {records records' : List Report}

/-- Every turn ends in one of these ways. -/
theorem exists_turn (tree : ModuleTree) (machine : Machine) (options : BatchOptions)
    (disk new : Disk) (path : Path) :
    ∃ record after, Turn tree machine options disk new path record after := by
  match hresult : tree.convertText disk path with
  | .error error => exact ⟨_, _, .failed hresult⟩
  | .ok .unchanged => exact ⟨_, _, .skipped hresult⟩
  | .ok (.converted handler) =>
    cases hdry : options.dryRun with
    | true => exact ⟨_, _, .announced hresult hdry⟩
    | false =>
      match hwrite : new.writeResult options.backup path handler.text machine with
      | (.ok (), after) => exact ⟨_, _, .written hresult hdry hwrite⟩
      | (.error fault, after) => exact ⟨_, _, .notWritten hresult hdry hwrite⟩

/-! ### What a turn does, from what has been computed -/

namespace Turn

variable {error : FileError} {handler : ConvertedHandler}

/-- A file without an outcome is recorded with its error, and changes nothing. -/
theorem of_error (h : Turn tree machine options disk new path record mid)
    (hresult : tree.convertText disk path = .error error) :
    record = { failures := [error] } ∧ mid = new := by
  cases h <;> simp_all

/-- A file that registers nothing is recorded as skipped, and changes nothing. -/
theorem of_unchanged (h : Turn tree machine options disk new path record mid)
    (hresult : tree.convertText disk path = .ok .unchanged) :
    record = { skipped := [path] } ∧ mid = new := by
  cases h <;> simp_all

/-- In a dry run a result is announced. -/
theorem of_converted_dry (h : Turn tree machine options disk new path record mid)
    (hresult : tree.convertText disk path = .ok (.converted handler))
    (hdry : options.dryRun = true) : record = { converted := [path] } ∧ mid = new := by
  cases h <;> simp_all

/-- In another run a result is written, or the file fails with the fault of the writing. -/
theorem of_converted_real (h : Turn tree machine options disk new path record mid)
    (hresult : tree.convertText disk path = .ok (.converted handler))
    (hdry : options.dryRun = false) :
    record = { converted := [path] } ∧
        new.writeResult options.backup path handler.text machine = (.ok (), mid) ∨
      ∃ fault, record = { failures := [.io path fault] } ∧
        new.writeResult options.backup path handler.text machine = (.error fault, mid) := by
  cases h <;> simp_all

/-- In any run a file with a result is recorded as converted, or with a fault of the machine or the
disk. -/
theorem of_converted (h : Turn tree machine options disk new path record mid)
    (hresult : tree.convertText disk path = .ok (.converted handler)) :
    record = { converted := [path] } ∨ ∃ fault, record = { failures := [.io path fault] } := by
  cases h <;> simp_all

/-- A turn reports no file as converted but its own. -/
theorem eq_of_mem_converted (h : Turn tree machine options disk new path record mid) {other : Path}
    (hmem : other ∈ record.converted) : other = path ∧ record = { converted := [path] } := by
  cases h <;> simp_all

end Turn

/-- A turn adds its record to the report. -/
theorem Turn.commit_eq (h : Turn tree machine options disk new path record mid) (report : Report) :
    Report.commit machine options (report, new) (path, tree.convertText disk path) =
      (report.merge record, mid) := by
  cases h with
  | failed hresult => simp [Report.commit, hresult, Report.addFailure, Report.merge]
  | skipped hresult => simp [Report.commit, hresult, Report.addSkipped, Report.merge]
  | announced hresult hdry =>
    simp [Report.commit, hresult, hdry, Report.addConverted, Report.merge]
  | written hresult hdry hwrite =>
    simp [Report.commit, hresult, hdry, hwrite, Report.addConverted, Report.merge]
  | notWritten hresult hdry hwrite =>
    simp [Report.commit, hresult, hdry, hwrite, Report.addFailure, Report.merge]

namespace Turns

/-- The turns of some files and then of others are the turns of all of them. -/
theorem append (h : Turns tree machine options disk new paths records mid)
    (h' : Turns tree machine options disk mid paths' records' last) :
    Turns tree machine options disk new (paths ++ paths') (records ++ records') last := by
  induction h with
  | nil => exact h'
  | cons hturn _ ih => exact .cons hturn (ih h')

/-- The turns of some files can be taken in two parts. -/
theorem of_append (h : Turns tree machine options disk new (paths ++ paths') records last) :
    ∃ mid first second, records = first ++ second ∧
      Turns tree machine options disk new paths first mid ∧
      Turns tree machine options disk mid paths' second last := by
  induction paths generalizing new records with
  | nil => exact ⟨new, [], records, rfl, .nil new, h⟩
  | cons path paths ih =>
    cases h with
    | cons hturn hturns =>
      obtain ⟨mid, first, second, rfl, hfirst, hsecond⟩ := ih hturns
      exact ⟨mid, _ :: first, second, rfl, .cons hturn hfirst, hsecond⟩

/-- The commits of some files add up to the records of their turns. -/
theorem foldl_commit (h : Turns tree machine options disk new paths records last)
    (report : Report) :
    (paths.map fun path => (path, tree.convertText disk path)).foldl (Report.commit machine options)
        (report, new) = (report.merge (.mergeAll records), last) := by
  induction h generalizing report with
  | nil new => simp
  | cons hturn _ ih =>
    rw [List.map_cons, List.foldl_cons, hturn.commit_eq, ih, Report.mergeAll_cons,
      Report.merge_assoc]

/-- A batch is the turns of its files, from the disk on which the results are computed. -/
theorem convertBatch_eq (h : Turns tree machine options disk disk paths records last) :
    tree.convertBatch options disk paths machine = (.mergeAll records, last) := by
  rw [convertBatch, h.foldl_commit, Report.empty_merge]

/-- A file that is reported as converted has been converted in one of the turns. -/
theorem exists_of_mem_converted (h : Turns tree machine options disk new paths records last)
    (hmem : path ∈ (Report.mergeAll records).converted) :
    ∃ before behind first second mid after, paths = before ++ path :: behind ∧
      Turns tree machine options disk new before first mid ∧
      Turn tree machine options disk mid path { converted := [path] } after ∧
      Turns tree machine options disk after behind second last := by
  induction h with
  | nil => cases hmem
  | @cons new mid last other paths record records hturn hturns ih =>
    rcases List.mem_append.mp hmem with hfirst | hrest
    · obtain ⟨rfl, rfl⟩ := hturn.eq_of_mem_converted hfirst
      exact ⟨[], paths, [], records, new, mid, rfl, .nil new, hturn, hturns⟩
    · obtain ⟨before, behind, first, second, mid', after, rfl, hbefore, hpath, hbehind⟩ := ih hrest
      exact ⟨other :: before, behind, record :: first, second, mid', after, rfl,
        .cons hturn hbefore, hpath, hbehind⟩

end Turns

/-- Every file of a batch has its turn. -/
theorem exists_turns (tree : ModuleTree) (machine : Machine) (options : BatchOptions)
    (disk new : Disk) (paths : List Path) :
    ∃ records last, Turns tree machine options disk new paths records last := by
  induction paths generalizing new with
  | nil => exact ⟨_, _, .nil new⟩
  | cons path paths ih =>
    obtain ⟨record, mid, hturn⟩ := exists_turn tree machine options disk new path
    obtain ⟨records, last, hturns⟩ := ih mid
    exact ⟨_, _, .cons hturn hturns⟩

end ModuleTree

end Reclass
