import Reclass.Proofs.Batch.Commit
import Mathlib.Data.List.Count

/-!
# Every file is accounted for

A batch records every file once: as converted, as skipped, or with its failure. What it records is
what has been computed for the file, except for results that cannot be written. A dry run records
what has been computed, so the two kinds of run differ in these failures only.
-/

namespace Reclass

namespace Report

/-- That a report records the files of a list, each one once, and keeps their order. -/
structure Accounts (report : Report) (files : List Path) : Prop where
  all : (report.converted ++ report.skipped ++ report.failures.map FileError.path).Perm files
  converted : report.converted.Sublist files
  skipped : report.skipped.Sublist files
  failures : (report.failures.map FileError.path).Sublist files

variable {report other : Report} {files files' : List Path}

/-- An empty report records no files. -/
theorem accounts_empty : Accounts {} [] := ⟨.refl _, .refl _, .refl _, .refl _⟩

/-- The files behind those of the first report are recorded by the second one. -/
theorem Accounts.merge (h : report.Accounts files) (h' : other.Accounts files') :
    (report.merge other).Accounts (files ++ files') where
  all := by
    refine List.Perm.trans ?_ (h.all.append h'.all)
    rw [List.perm_iff_count]
    intro path
    simp only [Report.merge, List.map_append, List.count_append]
    omega
  converted := h.converted.append h'.converted
  skipped := h.skipped.append h'.skipped
  failures := by
    simp only [Report.merge, List.map_append]
    exact h.failures.append h'.failures

/-- A report that records some files counts them all. -/
theorem Accounts.processed_eq (h : report.Accounts files) : report.processed = files.length := by
  have hlength := h.all.length_eq
  simp only [List.length_append, List.length_map] at hlength
  exact hlength

end Report

namespace FileError

/-- What is wrong at an offset of a file is said of this file. -/
@[simp] theorem path_atOffset (path : Path) (source : String) (offset : Nat) (reason : String) :
    (atOffset path source offset reason).path = path := rfl

/-- A syntax error of a file is said of this file. -/
@[simp] theorem path_syntaxAt (path : Path) (source : String) (error : SyntaxError) :
    (syntaxAt path source error).path = path := rfl

end FileError

namespace ModuleTree

/-! ### Errors belong to files -/

section Errors

variable (tree : ModuleTree) (disk : Disk) (path : Path)

/-- Where a file cannot import a module, this is said of the file. -/
theorem importSpecifier_failsAs (target : String) :
    (tree.importSpecifier disk path target).FailsAs (·.path = path) := by
  unfold importSpecifier
  split
  · exact Except.failsAs_ok _
  · split
    · exact Except.failsAs_ok _
    · exact Except.failsAs_error rfl

/-- Where a file cannot import what its members need, this is said of the file. -/
theorem renamingImports_failsAs (bound : List String) (members : List Member) :
    (tree.renamingImports disk path bound members).FailsAs (·.path = path) := by
  refine Except.failsAs_mapM (fun entry => ?_) _
  exact (tree.importSpecifier_failsAs disk path entry.path).bind fun _ _ => Except.failsAs_ok _

/-- Where a registration does not become a class, this is said of its file. -/
theorem classModule_failsAs (source : String) (call : Registration) :
    (tree.classModule disk path source call).FailsAs (·.path = path) := by
  unfold classModule
  refine (Except.failsAs_mapError _ fun error => ?members).bind fun members _ => ?_
  case members => exact FileError.path_syntaxAt path source error
  refine (Except.failsAs_mapError _ fun error => ?identity).bind fun identity _ => ?_
  case identity => exact FileError.path_atOffset path source _ _
  refine (Except.failsAs_mapError _ fun error => ?parent).bind fun parent _ => ?_
  case parent => exact FileError.path_atOffset path source _ _
  refine (tree.importSpecifier_failsAs disk path _).bind fun specifier _ => ?_
  exact (tree.renamingImports_failsAs disk path _ members).bind fun _ _ => Except.failsAs_ok _

/-- What is wrong with a source text is said of its file. -/
theorem convertSource_failsAs (source : String) :
    (tree.convertSource disk path source).FailsAs (·.path = path) := by
  unfold convertSource
  split
  · exact Except.failsAs_ok _
  · refine (Except.failsAs_mapError _ fun error => ?found).bind fun found _ => ?_
    case found => exact FileError.path_syntaxAt path source error
    cases found with
    | none => exact Except.failsAs_ok _
    | some call =>
      refine Except.FailsAs.bind ?_ fun _ _ => Except.failsAs_ok _
      exact (tree.classModule_failsAs disk path source call).bind fun _ _ => Except.failsAs_ok _

/-- What is wrong with a file is said of that file. -/
theorem convertText_failsAs : (tree.convertText disk path).FailsAs (·.path = path) := by
  unfold convertText
  refine (Except.failsAs_mapError _ fun fault => ?text).bind fun source _ => ?_
  case text => rfl
  exact tree.convertSource_failsAs disk path source

end Errors

/-! ### One batch -/

variable {tree : ModuleTree} {machine : Machine} {options dry real : BatchOptions}
  {disk new new' mid mid' last last' : Disk} {path : Path} {paths : List Path}
  {record record' : Report} {records records' : List Report}

/-- A turn records its file, and nothing else. -/
theorem Turn.accounts (h : Turn tree machine options disk new path record mid) :
    record.Accounts [path] := by
  cases h with
  | failed hresult =>
    have hpath := tree.convertText_failsAs disk path _ hresult
    constructor <;> simp [hpath]
  | skipped => constructor <;> simp
  | announced => constructor <;> simp
  | written => constructor <;> simp
  | notWritten => constructor <;> simp [FileError.path]

/-- The turns of some files record these files, and nothing else. -/
theorem Turns.accounts (h : Turns tree machine options disk new paths records last) :
    (Report.mergeAll records).Accounts paths := by
  induction h with
  | nil => exact Report.accounts_empty
  | cons hturn _ ih => exact hturn.accounts.merge ih

/-! ### Dry runs -/

/-- The failures of a report that are not those of the computation: there was a result for the file,
and it was not written. -/
def writeFailures (tree : ModuleTree) (disk : Disk) (report : Report) : List FileError :=
  report.failures.filter fun error => tree.hasResult disk error.path

/-- That the report of a dry run says what another run on the same disk reports, up to the failures
to write. Where the other run fails to write, the dry run has a converted file. -/
structure Foretells (tree : ModuleTree) (disk : Disk) (announced report : Report) : Prop where
  skipped : announced.skipped = report.skipped
  converted : announced.converted.Perm
    (report.converted ++ (tree.writeFailures disk report).map FileError.path)
  failures : announced.failures =
    report.failures.filter fun error => !tree.hasResult disk error.path
  /-- What is wrong with a result that is not written is a fault of the disk. -/
  faults : ∀ error ∈ tree.writeFailures disk report, ∃ fault, error = .io error.path fault

/-- Of no files, nothing is foretold and nothing is recorded. -/
theorem foretells_empty : tree.Foretells disk {} {} := by
  constructor <;> simp [writeFailures]

/-- What is foretold of some files and of others is foretold of both. -/
theorem Foretells.merge {announced report announced' report' : Report}
    (h : tree.Foretells disk announced report) (h' : tree.Foretells disk announced' report') :
    tree.Foretells disk (announced.merge announced') (report.merge report') where
  skipped := by simp only [Report.merge, h.skipped, h'.skipped]
  converted := by
    refine (h.converted.append h'.converted).trans ?_
    rw [List.perm_iff_count]
    intro path
    simp only [writeFailures, Report.merge, List.filter_append, List.map_append, List.count_append]
    omega
  failures := by simp only [Report.merge, h.failures, h'.failures, List.filter_append]
  faults error herror := by
    rw [writeFailures, Report.merge, List.filter_append, List.mem_append] at herror
    exact herror.elim (h.faults error) (h'.faults error)

/-- The turn of a file in a dry run foretells its turn in another run. -/
theorem Turn.foretells (hdry : dry.dryRun = true)
    (h : Turn tree machine dry disk new path record mid)
    (h' : Turn tree machine real disk new' path record' mid') :
    tree.Foretells disk record record' := by
  match hresult : tree.convertText disk path with
  | .error error =>
    have hnone : tree.hasResult disk error.path = false := by
      rw [tree.convertText_failsAs disk path error hresult, hasResult, hresult]
    obtain ⟨rfl, -⟩ := h.of_error hresult
    obtain ⟨rfl, -⟩ := h'.of_error hresult
    constructor <;> simp [writeFailures, hnone]
  | .ok .unchanged =>
    obtain ⟨rfl, -⟩ := h.of_unchanged hresult
    obtain ⟨rfl, -⟩ := h'.of_unchanged hresult
    constructor <;> simp [writeFailures]
  | .ok (.converted handler) =>
    have hsome : tree.hasResult disk path = true := by rw [hasResult, hresult]
    obtain ⟨rfl, -⟩ := h.of_converted_dry hresult hdry
    obtain rfl | ⟨fault, rfl⟩ := h'.of_converted hresult
    · constructor <;> simp [writeFailures]
    · constructor <;> simp [writeFailures, FileError.path, hsome]

/-- The turns of some files in a dry run foretell their turns in another run. -/
theorem Turns.foretells (hdry : dry.dryRun = true)
    (h : Turns tree machine dry disk new paths records last)
    (h' : Turns tree machine real disk new' paths records' last') :
    tree.Foretells disk (.mergeAll records) (.mergeAll records') := by
  induction h generalizing new' records' with
  | nil =>
    cases h'
    exact foretells_empty
  | cons hturn _ ih =>
    cases h' with
    | cons hturn' hturns' => exact (hturn.foretells hdry hturn').merge (ih hturns')

/-- A batch accounts for each of its files exactly once and in their order, whatever is on the disk,
whatever the machine refuses to write, and however often a file is listed. A dry run foretells the
report of the run that writes: the skipped files are the same, its failures are those of the
computation, and it reports as converted also the files whose results the other run fails to
write. -/
theorem convertBatch_accounts (tree : ModuleTree) (machine : Machine) (disk : Disk)
    (paths : List Path) :
    (∀ options, (tree.convertBatch options disk paths machine).1.Accounts paths ∧
      (tree.convertBatch options disk paths machine).1.processed = paths.length) ∧
    ∀ backup backup', tree.Foretells disk
      (tree.convertBatch { dryRun := true, backup := backup } disk paths machine).1
      (tree.convertBatch { dryRun := false, backup := backup' } disk paths machine).1 := by
  constructor
  · intro options
    obtain ⟨records, last, hturns⟩ := exists_turns tree machine options disk disk paths
    rw [hturns.convertBatch_eq]
    exact ⟨hturns.accounts, hturns.accounts.processed_eq⟩
  · intro backup backup'
    obtain ⟨records, last, hturns⟩ := exists_turns tree machine ⟨true, backup⟩ disk disk paths
    obtain ⟨records', last', hturns'⟩ := exists_turns tree machine ⟨false, backup'⟩ disk disk paths
    rw [hturns.convertBatch_eq, hturns'.convertBatch_eq]
    exact hturns.foretells rfl hturns'

/-- In a directory to which nothing can be added no result is written, although a dry run announces
it: the file may not be replaced there. -/
example :
    let disk : Disk := ⟨[], [(["r"], .directory),
      (["a.js", "r"], .file (.text "NGS.createLoad('a.x', \x7b\x7d)")),
      (["b.js", "r"], .file (.text "export default 1;"))]⟩
    let report := fun options : BatchOptions =>
      (convertBatch { root := ⟨"/r"⟩ } options disk [⟨"/r/a.js"⟩, ⟨"/r/b.js"⟩]
        (.locking [["r"]])).1
    report { dryRun := true } = { converted := [⟨"/r/a.js"⟩], skipped := [⟨"/r/b.js"⟩] } ∧
      report {} =
        { skipped := [⟨"/r/b.js"⟩], failures := [.io ⟨"/r/a.js"⟩ .permissionDenied] } := by
  decide +kernel

end ModuleTree

end Reclass
