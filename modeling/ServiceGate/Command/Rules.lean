/-
# Listing the rules

The rules are listed group by group, and then the parts of the configuration that they depend on.

For a reader, a text is put between double quotes; quotes, backslashes and characters that cannot be
seen are escaped, the latter by their code points.
-/
import ServiceGate.CharClass.Visible
import ServiceGate.Command.Environment
import ServiceGate.Rule.Registry
import ServiceGate.Text.Search

namespace ServiceGate.Text

/-- A character as it is shown between quotes. -/
def showChar (c : Char) : Text :=
  if c = '"' ∨ c = '\\' then ['\\', c]
  else if c = '\t' then ['\\', 't']
  else if c = '\n' then ['\\', 'n']
  else if c = '\r' then ['\\', 'r']
  else if c = '\x00' then ['\\', '0']
  else if CharClass.isVisible c then [c]
  else "\\u\x7b".toList ++ Nat.toDigits 16 c.toNat ++ "\x7d".toList

def shown (t : Text) : Text := '"' :: t.flatMap showChar ++ ['"']

def shownList (ts : List Text) : Text := '[' :: join ", ".toList (ts.map shown) ++ [']']

end ServiceGate.Text

namespace ServiceGate

/-- A text filled up with blanks at its end. -/
def padEnd (width : Nat) (t : Text) : Text := t ++ List.replicate (width - t.length) ' '

def ruleLine (rule : Rule) : Text :=
  let level := match rule.level with
    | .error => "[ERROR]"
    | .warning => "[WARN] "
  let repair := if Rule.isFixable rule.code then "[FIX]" else "     "
  s!"  {level} {repair} ".toList ++ padEnd 34 rule.code.toList ++
    s!" {rule.message}  {rule.gate.name}".toList

/-- The lines of some rules; `group` is the one that was named last. -/
def ruleLinesFrom (group : Option RuleGroup) : List Rule → List Text
  | [] => []
  | rule :: rest =>
    (if group = some rule.group then [] else [[], s!"  {rule.group.name}".toList]) ++
      ruleLine rule :: ruleLinesFrom (some rule.group) rest

/-- What is said of a configuration; `stated` if the project states one. -/
def configLines (stated : Bool) (config : Config) : List Text :=
  [[],
    if stated then "   Info: Política cargada desde ".toList ++ Config.fileName ++ [':']
    else "   Info: No se encontró ".toList ++ Config.fileName ++
      ". Usando valores por defecto.".toList,
    s!"   storage_mode = \"{config.storageMode.name}\"".toList,
    "   [policy]".toList,
    "   infra_paths = ".toList ++ Text.shownList config.policy.infraPaths,
    s!"   action_segments = {config.policy.actionSegments.length} segmento(s)".toList,
    "   optional_import_members = ".toList ++ Text.shownList config.policy.optionalImportMembers]

def listRules (env : Environment) (tree : FileTree) : Run :=
  match env.config tree with
  | .error fault => ⟨tree, [], .error (.config fault env.configPath)⟩
  | .ok config =>
    ⟨tree, [[], "Reglas del gate:".toList] ++ ruleLinesFrom none Rule.all ++
      configLines (tree.isThereAt env.configPath) config, .ok true⟩

end ServiceGate
