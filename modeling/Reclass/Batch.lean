import Reclass.Batch.Report

/-!
# Batches

Many files are converted in two phases. First every result is computed from the disk as it is; then
the results are written one after the other. A file that fails in either phase does not keep the
others from being converted.
-/

namespace Reclass

/-- How the results of a batch are written. -/
structure BatchOptions where
  /-- Write nothing, only report. -/
  dryRun : Bool := false
  /-- Keep what every file held before. -/
  backup : Bool := false
  deriving DecidableEq, Repr

/-- Records what has been computed for a file, and writes it. -/
def Report.commit (machine : Machine) (options : BatchOptions) (state : Report × Disk)
    (computed : Path × Except FileError Conversion) : Report × Disk :=
  let (report, disk) := state
  match computed with
  | (_, .error error) => (report.addFailure error, disk)
  | (path, .ok .unchanged) => (report.addSkipped path, disk)
  | (path, .ok (.converted handler)) =>
    if options.dryRun then (report.addConverted path, disk)
    else match disk.writeResult options.backup path handler.text machine with
      | (.ok (), disk) => (report.addConverted path, disk)
      | (.error fault, disk) => (report.addFailure (.io path fault), disk)

/-- Converts many files: computes everything, then writes. -/
def ModuleTree.convertBatch (tree : ModuleTree) (options : BatchOptions) (disk : Disk)
    (paths : List Path) (machine : Machine := .willing) : Report × Disk :=
  let computed := paths.map fun path => (path, tree.convertText disk path)
  computed.foldl (Report.commit machine options) ({}, disk)

end Reclass
