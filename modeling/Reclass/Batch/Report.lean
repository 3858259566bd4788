import Reclass.ModuleTree

/-!
# Batch reports

What became of the files of a batch: each has been converted, skipped, or has failed.
-/

namespace Reclass

/-- The outcome of a batch, in the order in which the files were given. -/
structure Report where
  converted : List Path := []
  /-- The files that register no handler. -/
  skipped : List Path := []
  failures : List FileError := []
  deriving DecidableEq, Repr

namespace Report

/-- Records a converted file. -/
def addConverted (report : Report) (path : Path) : Report :=
  { report with converted := report.converted ++ [path] }

/-- Records a skipped file. -/
def addSkipped (report : Report) (path : Path) : Report :=
  { report with skipped := report.skipped ++ [path] }

/-- Records a failure. -/
def addFailure (report : Report) (error : FileError) : Report :=
  { report with failures := report.failures ++ [error] }

/-- The outcomes of two batches, one behind the other. -/
def merge (first second : Report) : Report where
  converted := first.converted ++ second.converted
  skipped := first.skipped ++ second.skipped
  failures := first.failures ++ second.failures

/-- The number of files in the batch. -/
def processed (report : Report) : Nat :=
  report.converted.length + report.skipped.length + report.failures.length

/-- Whether no file has failed. -/
def success (report : Report) : Bool := report.failures.isEmpty

/-- The share of the files that were converted; of no files it is zero. -/
def successRate (report : Report) : Float :=
  if report.processed = 0 then 0
  else Float.ofNat report.converted.length / Float.ofNat report.processed

end Report

end Reclass
