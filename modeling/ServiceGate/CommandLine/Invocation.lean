/-
# Running the gate

The gate runs in a directory.  The project is the innermost one around it that has a configuration
or a package description, and the directory itself if there is none; targets are taken from the
directory.  The exit code tells whether nothing blocks (0), something does (1), or the gate could
not do what it was asked for (2).
-/
import ServiceGate.Command.Rules
import ServiceGate.CommandLine.Parse

namespace ServiceGate

/-- How a run of the gate ended. -/
inductive Ending where
  | passed
  | blocked
  | failed (failure : Failure)
  | misused (error : UsageError)
deriving DecidableEq, Repr

/-- What came of a run of the gate. -/
structure Invocation where
  tree : FileTree
  /-- The lines it has said. -/
  output : List Text
  ending : Ending

namespace Ending

def code : Ending → Nat
  | .passed => 0
  | .blocked => 1
  | .failed (.contradiction _) => 101
  | .failed _ => 2
  | .misused .displayHelp => 0
  | .misused .displayVersion => 0
  | .misused _ => 2

/-- What is said of a failure apart from the output. -/
def complaint? : Ending → Option Text
  | .failed (.contradiction _) => none
  | .failed failure => some ("❌ ".toList ++ failure.message)
  | _ => none

end Ending

/-- Whether a directory is the root of a project. -/
def isProjectRoot (tree : FileTree) (directory : Text) : Bool :=
  tree.isThereAt (FilePath.join directory Config.fileName) ||
    tree.isThereAt (FilePath.join directory "package.json".toList)

/-- The root of the innermost project around a directory. -/
def projectRoot? (tree : FileTree) (start : Text) : Option Text :=
  (FilePath.ancestors start).find? (isProjectRoot tree)

def Run.ended (r : Run) : Invocation where
  tree := r.tree
  output := r.output
  ending := match r.outcome with
    | .ok true => .passed
    | .ok false => .blocked
    | .error failure => .failed failure

/-- Does what is asked for, with targets taken from a directory. -/
def Request.run (request : Request) (env : Environment) (directory : Text) (tree : FileTree)
    (config : Config) : Run :=
  match request with
  | .check r => { r with target := FilePath.join directory r.target }.run env tree config
  | .fix r => { r with target := FilePath.join directory r.target }.run env tree config
  | .rules => listRules env tree
  | .ignore r => r.run env tree

def invoke (tree : FileTree) (today directory : Text) (words : List Text) : Invocation :=
  match CommandLine.parse words with
  | .error .displayVersion =>
    ⟨tree, [s!"{toolName} {toolVersion}".toList], .misused .displayVersion⟩
  | .error e => ⟨tree, [], .misused e⟩
  | .ok request =>
    let env : Environment := ⟨(projectRoot? tree directory).getD directory, today⟩
    match env.config tree with
    | .error fault => ⟨tree, [], .failed (.config fault env.configPath)⟩
    | .ok config => (request.run env directory tree config).ended

def printed (lines : List Text) : Text := lines.flatMap (· ++ ['\n'])

end ServiceGate
