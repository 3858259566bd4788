import Reclass.CommandLine
import Reclass.Disk.Scripts
import Reclass.Workspace

/-!
# The program

The program as a function of its arguments, the disk and the machine. It answers with an exit code,
what it writes to its two outputs, and the disk as it leaves it.
-/

namespace Reclass

/-- What a run of the program leaves behind. -/
structure Outcome where
  code : UInt32
  /-- The text on the standard output. -/
  output : String := ""
  /-- The lines on the standard error output. -/
  errors : List String := []
  disk : Disk
  deriving DecidableEq, Repr

/-- The version of the program. -/
def version : String := "0.1.0"

/-- How the program is called. -/
def usage : String :=
  "Usage: ngs [-v] convert [-m NAME] [--root DIR] [--dir SUBDIR] [--aliases FILE] [--dry-run] " ++
    "[--backup] [PATH]...\nThe names of the files are read from the standard input."

/-- Why a run of `convert` does not end well. -/
inductive RunError where
  /-- The renamings of the project are not known. -/
  | notConfigured (module : String) (cause : SetupError)
  /-- The module has no scan directory. -/
  | noScanDirectory (directory : Path)
  /-- Some files could not be converted. -/
  | notConverted (count : Nat)
  deriving DecidableEq, Repr

/-- The wording of each error. -/
def RunError.message : RunError → String
  | .notConfigured module _ => "Failed to configure module '" ++ module ++ "'"
  | .noScanDirectory directory => "Scan directory " ++ directory.text ++ " does not exist"
  | .notConverted count => toString count ++ " file(s) could not be converted"

/-- The run that ends with an error, after the lines for the files that failed. -/
def RunError.outcome (error : RunError) (disk : Disk) (output : String := "")
    (lines : List String := []) : Outcome where
  code := 1
  output := output
  errors := lines ++ ["Error: " ++ error.message]
  disk := disk

namespace ConvertRequest

/-- Where a request looks for scripts: at the given paths, or else in the scan directory, which has
to be there. -/
def searchRoots (request : ConvertRequest) (workspace : Workspace) (disk : Disk) :
    Except RunError (List Path) :=
  match request.paths with
  | [] =>
    let root := workspace.scanRoot request.module
    if disk.isDirectory root then .ok [root]
    else .error (.noScanDirectory root)
  | paths => .ok (paths.map Path.mk)

/-- The line that sums up a batch. -/
def summaryLine (request : ConvertRequest) (report : Report) : String :=
  (if request.options.dryRun then "would convert " else "converted ") ++
    toString report.converted.length ++ ", skipped " ++ toString report.skipped.length ++
    ", failed " ++ toString report.failures.length ++ "\n"

/-- Carries out a request. -/
def run (request : ConvertRequest) (disk : Disk) (machine : Machine := .willing) : Outcome :=
  let workspace := Workspace.start disk request.settings
  match workspace.tree disk request.module with
  | .error cause => RunError.outcome (.notConfigured request.module cause) disk
  | .ok (tree, workspace) =>
    match request.searchRoots workspace disk with
    | .error error => error.outcome disk
    | .ok roots =>
      let sources := roots.flatMap disk.scripts
      let (report, disk) := tree.convertBatch request.options disk sources machine
      let line := request.summaryLine report
      if report.success then { code := 0, output := line, disk := disk }
      else
        RunError.outcome (.notConverted report.failures.length) disk line
          (report.failures.map fun error => "error: " ++ error.message)

end ConvertRequest

/-- Runs the program. Arguments that are rejected give the code 2. -/
def run (arguments : List String) (disk : Disk) (machine : Machine := .willing) : Outcome :=
  match Request.ofArguments arguments with
  | .error error => { code := 2, errors := ["error: " ++ error.message, usage], disk := disk }
  | .ok .version => { code := 0, output := "ngs " ++ version ++ "\n", disk := disk }
  | .ok .help => { code := 0, output := usage ++ "\n", disk := disk }
  | .ok (.convert request) => request.run disk machine

end Reclass
