/-
# Checking a target

The files of the target are judged together, and their issues reported.  The check passes if no
issue blocks.
-/
import ServiceGate.Command.Environment
import ServiceGate.FileTree.Sources
import ServiceGate.Report.Json
import ServiceGate.Report.Sarif
import ServiceGate.Report.Text

namespace ServiceGate

/-- The forms of a report. -/
inductive ReportFormat where
  | text
  | json
  | sarif
deriving DecidableEq, Repr

/-- What to check, and how to report. -/
structure CheckRequest where
  target : Text
  /-- The storage mode to check for instead of the configured one. -/
  storageMode : Option StorageMode
  format : ReportFormat
  quiet : Bool
  verbose : Bool
deriving DecidableEq, Repr

/-- The path of a target under a project's root. -/
def Environment.targetPath (env : Environment) (target : Text) : Text :=
  FilePath.join env.root target

def Environment.sourcePaths (env : Environment) (tree : FileTree) (config : Config)
    (target : Text) : Except Failure (List Text) :=
  if tree.isThereAt (env.targetPath target) then
    .ok (ServiceGate.sourcePaths tree config (env.targetPath target))
  else .error (.missingTarget target)

def Environment.sources (env : Environment) (tree : FileTree) (paths : List Text) :
    Except Failure (List SourceFile) :=
  match loadSources tree env.root paths with
  | .ok files => .ok files
  | .error path => .error (.unreadable path)

namespace CheckRequest

def verbosity (r : CheckRequest) : Verbosity := .ofSwitches r.quiet r.verbose

/-- What is said of a target without files. -/
def emptyLines (r : CheckRequest) : List Text :=
  match r.format with
  | .text =>
    ["⚠️ No se encontraron archivos para revisar en '".toList ++ r.target ++ "'.".toList]
  | .json => [renderJson 0 []]
  | .sarif => [renderSarif []]

/-- What is said before the files are judged. -/
def headingLines (r : CheckRequest) (files : List SourceFile) : List Text :=
  match r.format with
  | .text => ServiceGate.headingLines r.verbosity files
  | .json | .sarif => []

def reportLines (r : CheckRequest) (files : List SourceFile) (issues : List ReportedIssue) :
    List Text :=
  match r.format with
  | .text => issueLines r.verbosity issues ++ summaryLines r.verbosity files.length issues
  | .json => [renderJson files.length issues]
  | .sarif => [renderSarif issues]

/-- Judges the files of the target and reports on them. -/
def judge (r : CheckRequest) (env : Environment) (tree : FileTree) (config : Config)
    (files : List SourceFile) : Run :=
  match validateFiles config.policy (r.storageMode.getD config.storageMode) files with
  | .error fault => ⟨tree, r.headingLines files, .error (.contradiction fault)⟩
  | .ok verdict =>
    let issues := reportedIssues verdict files (env.suppressions tree)
    ⟨env.countRun (·.recordCheck files.length (errorCount issues)) tree,
      r.headingLines files ++ r.reportLines files issues, .ok (errorCount issues == 0)⟩

def run (r : CheckRequest) (env : Environment) (tree : FileTree) (config : Config) : Run :=
  match env.sourcePaths tree config r.target >>= env.sources tree with
  | .error failure => ⟨tree, [], .error failure⟩
  | .ok files =>
    if files.isEmpty then ⟨tree, r.emptyLines, .ok true⟩ else r.judge env tree config files

end CheckRequest

end ServiceGate
