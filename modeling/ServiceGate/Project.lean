/-
# The files of one service

Files are judged one by one, and together: a name that several of them export is an error of the
service.  The verdict on the service repeats the issues of its files, each with the path in front,
and adds the collisions.
-/
import ServiceGate.Verdict

namespace ServiceGate

open Pattern

/-- A file of the service, by its path relative to the project. -/
structure SourceFile where
  path : Text
  text : Text
deriving DecidableEq, Repr

/-- The exported declaration of a name, which is the first group. -/
def exportDeclaration : Pattern :=
  inOrder [wordEdge, word "export", gap, optional (seq (word "default") gap),
    optional (seq (word "declare") gap), optional (seq (word "abstract") gap),
    anyWord ["interface", "type", "class", "enum", "const", "let", "function"], gap,
    capture 1 name]

/-- The names that a text exports, as often as it does. -/
def exportedSymbols (t : Text) : List Text :=
  (exportDeclaration.all (Scan.blank t)).map (·.groupText 1)

/-- The names that each file exports, by the file's path. -/
abbrev Exports := List (Text × List Text)

namespace Exports

def ofFiles (files : List SourceFile) : Exports :=
  files.map fun f => (f.path, exportedSymbols f.text)

/-- All exported names in ascending order, each once. -/
def symbols (exports : Exports) : List Text := sortedSet (exports.flatMap (·.2))

/-- The paths whose files export a name, each once, in the order of the files. -/
def owners (exports : Exports) (symbol : Text) : List Text :=
  ((exports.filter (·.2.contains symbol)).map (·.1)).eraseDups

/-- The names that more than one path exports, with these paths. -/
def collisions (exports : Exports) : List (Text × List Text) :=
  (exports.symbols.map fun s => (s, exports.owners s)).filter fun c => 1 < c.2.length

end Exports

/-- The code of a name that several files export. -/
def duplicateExport : String := "DUPLICATE_EXPORT"

def collisionIssue (symbol : Text) (paths : List Text) : Issue where
  code := duplicateExport
  message := s!"'{String.ofList symbol}' is exported from multiple files: "
    ++ String.ofList (Text.join ", ".toList paths)
  position := none
  matched := symbol
  remedy := "Define the symbol once in a shared module and import it elsewhere"

/-- An issue of a file as it is told of the service. -/
def Issue.inFile (path : Text) (i : Issue) : Issue :=
  { i with message := s!"{String.ofList path}: {i.message}" }

/-- The verdicts on the files of a service and on the whole of it. -/
structure ProjectVerdict where
  /-- The verdict on each file, by its path. -/
  perFile : List (Text × Verdict)
  aggregate : Verdict
deriving DecidableEq, Repr

namespace ProjectVerdict

def isValid (v : ProjectVerdict) : Bool := v.aggregate.isValid

/-- The verdict on a service whose files have been judged. -/
def ofFiles (exports : Exports) (perFile : List (Text × Verdict)) : ProjectVerdict :=
  let told := fun (pick : Verdict → List Issue) =>
    perFile.flatMap fun (path, v) => (pick v).map (Issue.inFile path)
  let collided := exports.collisions.map fun (symbol, paths) => collisionIssue symbol paths
  let whole := Verdict.ofIssues (told (·.errors) ++ collided) (told (·.warnings))
  ⟨perFile, { whole with fixableCodes := sortedSet (perFile.flatMap (·.2.fixableCodes)) }⟩

end ProjectVerdict

/-- The verdict on the files of a service. -/
def validateFiles (policy : Policy) (mode : StorageMode) (files : List SourceFile) :
    Except SpanFault ProjectVerdict := do
  let perFile ← files.mapM fun f => (validate policy mode f.text).map fun v => (f.path, v)
  return .ofFiles (.ofFiles files) perFile

end ServiceGate
