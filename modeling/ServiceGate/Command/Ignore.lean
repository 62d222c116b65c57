/-
# Keeping suppressions

Suppressions are listed, cleared file by file, or added, in this order of precedence.  Hand-written
lists are shown but never changed.
-/
import ServiceGate.Command.Environment

namespace ServiceGate

/-- What to do with the suppressions. -/
structure IgnoreRequest where
  /-- The rule to suppress. -/
  rule : Option Text
  /-- The file in which to suppress it, all files if none is given. -/
  file : Option Text
  /-- Whether to list the suppressions instead. -/
  list : Bool
  /-- The file whose suppressions to remove instead. -/
  clear : Option Text
deriving DecidableEq, Repr

namespace IgnoreRequest

/-- The lines of a list of suppressions. -/
def listLines : List Suppression → List Text
  | [] => ["No hay ignores activos.".toList]
  | entries => [[], "Ignores activos:".toList] ++
      entries.map fun s => "  ".toList ++ Text.join [' '] [s.rule, s.file, s.added]

def usageLines : List Text :=
  ["Uso: sentinel-gate ignore <REGLA> [ARCHIVO]", "     sentinel-gate ignore --list",
    "     sentinel-gate ignore --clear <ARCHIVO>"].map String.toList

def store (env : Environment) (tree : FileTree) (entries : List Suppression) (line : Text) : Run :=
  match env.write tree Environment.suppressionFile (Suppression.renderStore entries) with
  | .ok tree => ⟨tree, [line], .ok true⟩
  | .error fault => ⟨tree, [], .error (.unwritable fault)⟩

/-- Removes the stored suppressions for a file. -/
def runClear (env : Environment) (tree : FileTree) (file : Text) : Run :=
  let entries := env.storedSuppressions tree
  let kept := Suppression.clear entries file
  store env tree kept
    (s!"✅ {entries.length - kept.length} ignore(s) eliminados para '".toList ++ file ++ "'.".toList)

/-- Stores a suppression unless it is already stored. -/
def runAdd (env : Environment) (tree : FileTree) (rule file : Text) : Run :=
  let entries := env.storedSuppressions tree
  if Suppression.holds entries rule file then
    ⟨tree, ["ℹ️ Ya existe ese ignore.".toList], .ok true⟩
  else store env tree (entries ++ [⟨rule, file, env.today⟩])
    ("✅ Ignorando ".toList ++ rule ++ " en ".toList ++ file ++ " en próximas ejecuciones.".toList)

def run (r : IgnoreRequest) (env : Environment) (tree : FileTree) : Run :=
  if r.list then ⟨tree, listLines (env.suppressions tree), .ok true⟩
  else
    match r.clear, r.rule with
    | some file, _ => runClear env tree file
    | none, none => ⟨tree, usageLines, .ok true⟩
    | none, some rule => runAdd env tree rule (r.file.getD Suppression.wildcard)

end IgnoreRequest

end ServiceGate
