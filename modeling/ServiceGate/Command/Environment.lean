/-
# Where a command runs, and what comes of it

A command works on the file tree that it finds and answers with the tree that it leaves, what it
has said, and how it ended.  What the gate keeps about a project, its configuration, its statistics
and its suppressions, lies in files under the project's root.
-/
import ServiceGate.Config.Document
import ServiceGate.FileTree.Basic
import ServiceGate.Rule.Basic
import ServiceGate.Statistics
import ServiceGate.Suppression

namespace ServiceGate

/-- Why a configuration cannot be used. -/
inductive ConfigFault where
  /-- Its file cannot be read. -/
  | unreadable
  /-- Its document does not state one. -/
  | malformed
deriving DecidableEq, Repr

/-- Why a command could not do its work. -/
inductive Failure where
  | missingTarget (target : Text)
  | unreadable (path : Text)
  | unwritable (fault : WriteFault)
  | config (fault : ConfigFault) (path : Text)
  /-- A file's structure contradicts itself. -/
  | contradiction (fault : SpanFault)
deriving DecidableEq, Repr

def WriteFault.message : WriteFault → String
  | .fileInTheWay => "File exists (os error 17)"
  | .isDirectory => "Is a directory (os error 21)"

def Failure.message : Failure → Text
  | .missingTarget target =>
    "El destino '".toList ++ target ++ "' no existe en el proyecto.".toList
  | .unreadable path => "could not read ".toList ++ path
  | .unwritable fault => fault.message.toList
  | .config .unreadable path => "could not read ".toList ++ path
  | .config .malformed path => "invalid ".toList ++ path
  | .contradiction f => s!"stretch from {f.start} to {f.stop}".toList

/-- Where a command runs. -/
structure Environment where
  /-- The path of the project's root. -/
  root : Text
  /-- The present day. -/
  today : Text

/-- What comes of a command: whether nothing blocks, or why it failed. -/
structure Run where
  tree : FileTree
  /-- The lines it has said. -/
  output : List Text
  outcome : Except Failure Bool

namespace Environment

def path (env : Environment) (names : List String) : Text :=
  FilePath.join env.root (Text.join ['/'] (names.map String.toList))

def place (env : Environment) (tree : FileTree) (names : List String) : Place :=
  (tree.locate? env.root).getD [] ++ names.map String.toList

def read? (env : Environment) (tree : FileTree) (names : List String) : Option Text :=
  tree.readPath? (env.path names)

def write (env : Environment) (tree : FileTree) (names : List String) (t : Text) :
    Except WriteFault FileTree :=
  tree.tryWrite (env.place tree names) t

/-! ## Configuration -/

def configPath (env : Environment) : Text := FilePath.join env.root Config.fileName

/-- The configuration of the project; the default one if the project has none. -/
def config (env : Environment) (tree : FileTree) : Except ConfigFault Config :=
  if !tree.isThereAt env.configPath then .ok .default
  else
    match tree.readPath? env.configPath with
    | none => .error .unreadable
    | some t =>
      match Config.read? t with
      | none => .error .malformed
      | some config => .ok config

/-! ## Statistics -/

def statisticsFile : List String := [".sentinel", "gate_stats.json"]

def statistics (env : Environment) (tree : FileTree) : Statistics :=
  ((env.read? tree statisticsFile).map Statistics.read).getD .zero

/-- Keeps the statistics, where they can be kept. -/
def keepStatistics (env : Environment) (tree : FileTree) (s : Statistics) : FileTree :=
  match env.write tree statisticsFile s.render with
  | .ok tree => tree
  | .error _ => tree

/-- Changes the statistics that are kept. -/
def countRun (env : Environment) (count : Statistics → Statistics) (tree : FileTree) : FileTree :=
  env.keepStatistics tree (count (env.statistics tree))

/-! ## Suppressions -/

/-- Where the stored suppressions are kept. -/
def suppressionFile : List String := [".sentinel", "ignore.json"]

def storedSuppressions (env : Environment) (tree : FileTree) : List Suppression :=
  ((env.read? tree suppressionFile).map Suppression.readStore).getD []

/-- The name of a hand-written list of suppressions. -/
def suppressionListName : Text := ".sentinelignore".toList

/-- The directories in which no hand-written list is looked for. -/
def unsearched : List Text :=
  ["node_modules", ".git", "dist", "build", "coverage", ".sentinel"].map String.toList

/-- How deep a hand-written list may lie. -/
def searchDepth : Nat := 10

/-- The directories of the project that hold a hand-written list, outer ones first. -/
def suppressionListDirectories (env : Environment) (tree : FileTree) : List Place :=
  match tree.locate? env.root with
  | none => []
  | some root =>
    let lists := (tree.files.map (·.1)).filter fun p =>
      root.isPrefixOf p && p.getLast? == some suppressionListName
    (lists.map List.dropLast).filter (fun d =>
        let names := d.drop root.length
        names.length ≤ searchDepth && !names.any unsearched.contains)
      |>.mergeSort fun p q => !decide (q < p)

/-- The suppressions of the hand-written lists. -/
def listedSuppressions (env : Environment) (tree : FileTree) : List Suppression :=
  (env.suppressionListDirectories tree).flatMap fun d =>
    ((tree.read? (d ++ [suppressionListName])).map (Suppression.ofList env.today)).getD []

/-- All suppressions of the project, the stored ones first. -/
def suppressions (env : Environment) (tree : FileTree) : List Suppression :=
  env.storedSuppressions tree ++ env.listedSuppressions tree

end Environment

end ServiceGate
