/-
# Repairing a target

The files of the target are repaired one by one, the repaired texts written if that was asked for,
and judged anew.  A file whose repair was given up keeps its text.  The repair passes if no issue of
the repaired texts blocks, whether they were written or not.
-/
import ServiceGate.Command.Check
import ServiceGate.Repair.Basic

namespace ServiceGate

/-- What to repair, and how to tell of it. -/
structure FixRequest where
  target : Text
  /-- The storage mode to judge for instead of the configured one. -/
  storageMode : Option StorageMode
  /-- Whether to write the repaired texts. -/
  write : Bool
  quiet : Bool
  verbose : Bool
deriving DecidableEq, Repr

namespace FileRepair

/-- Whether a repair has something to write. -/
def isWorthWriting (r : FileRepair) : Bool := !r.report.reverted && !r.report.applied.isEmpty

def lines (verbosity : Verbosity) (r : FileRepair) : List Text :=
  if r.report.reverted then
    ["↩️ ".toList ++ r.path ++
      ": la corrección desbalanceaba el archivo, se conserva el original".toList]
  else if r.report.applied.isEmpty || verbosity = .quiet then []
  else ("🔧 ".toList ++ r.path) :: r.report.applied.map fun code => s!"   ✔ {code}".toList

end FileRepair

def repairCount (repairs : List FileRepair) : Nat :=
  repairs.foldr (fun r n => n + r.report.applied.length) 0

/-- Writes the texts of the repairs that are worth it to the files they belong to. -/
def writeRepairs : FileTree → List (Text × FileRepair) → FileTree
  | tree, [] => tree
  | tree, (path, r) :: rest =>
    match tree.locate? path with
    | some p =>
      writeRepairs (if r.isWorthWriting then tree.write p r.report.text else tree) rest
    | none => writeRepairs tree rest

namespace FixRequest

def verbosity (r : FixRequest) : Verbosity := .ofSwitches r.quiet r.verbose

/-- What is said of a target without files. -/
def emptyLines (r : FixRequest) : List Text :=
  ["⚠️ No se encontraron archivos para corregir en '".toList ++ r.target ++ "'.".toList]

/-- What is said of the errors that remain. -/
def remainingLines (r : FixRequest) (remaining : List ReportedIssue) : List Text :=
  (if remaining.isEmpty || r.quiet then []
    else [[], "Errores que requieren regeneración:".toList]) ++
    issueLines r.verbosity remaining

def summaryLines (r : FixRequest) (repairs : List FileRepair) (remaining : List ReportedIssue) :
    List Text :=
  if r.quiet then []
  else
    let fixed := s!"🔧 {repairCount repairs} corrección(es) aplicada(s)"
    let left := s!"🚩 {remaining.length} error(es) restante(s)"
    let hint := if r.write || repairCount repairs == 0 then "" else "  (usa --write para guardar)"
    [[], s!"{fixed}  {left}{hint}".toList]

/-- Judges repaired files and tells of what remains. -/
def judge (r : FixRequest) (env : Environment) (tree : FileTree) (config : Config)
    (repairs : List FileRepair) : Run :=
  let files := repairs.map (·.result)
  let told := repairs.flatMap (·.lines r.verbosity)
  match validateFiles config.policy (r.storageMode.getD config.storageMode) files with
  | .error fault => ⟨tree, told, .error (.contradiction fault)⟩
  | .ok verdict =>
    let remaining := (reportedIssues verdict files (env.suppressions tree)).filter (·.isError)
    let count := fun s : Statistics =>
      (s.recordCheck files.length remaining.length).recordFix (repairCount repairs)
        (repairs.any (·.report.reverted))
    ⟨env.countRun count tree,
      told ++ r.remainingLines remaining ++ r.summaryLines repairs remaining,
      .ok remaining.isEmpty⟩

def repair (r : FixRequest) (env : Environment) (tree : FileTree) (config : Config)
    (paths : List Text) (files : List SourceFile) : Run :=
  match repairFiles config.policy (r.storageMode.getD config.storageMode) files with
  | .error fault => ⟨tree, [], .error (.contradiction fault)⟩
  | .ok repairs =>
    r.judge env (if r.write then writeRepairs tree (paths.zip repairs) else tree) config repairs

def run (r : FixRequest) (env : Environment) (tree : FileTree) (config : Config) : Run :=
  match env.sourcePaths tree config r.target with
  | .error failure => ⟨tree, [], .error failure⟩
  | .ok paths =>
    match env.sources tree paths with
    | .error failure => ⟨tree, [], .error failure⟩
    | .ok files =>
      if files.isEmpty then ⟨tree, r.emptyLines, .ok true⟩ else r.repair env tree config paths files

end FixRequest

end ServiceGate
