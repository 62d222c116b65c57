/-
# The configuration as a document

A document need not say everything: what it leaves out keeps its default, and what it says beyond
the configuration does not matter.  Anything that it says of the configuration has to be of the
right kind.
-/
import ServiceGate.Config.Basic
import ServiceGate.Toml.Read

namespace ServiceGate

/-! ## Reading -/

namespace TomlValue

def text? : TomlValue → Option Text
  | .text t => some t
  | _ => none

def texts? : TomlValue → Option (List Text)
  | .list items => items.mapM text?
  | _ => none

/-- The storage mode that a value names, by its name or as the only key of a table, which then
holds an empty table. -/
def storageMode? : TomlValue → Option StorageMode
  | .text name => StorageMode.ofName? (String.ofList name)
  | .table _ [(name, .table _ [])] => StorageMode.ofName? (String.ofList name)
  | _ => none

end TomlValue

/-- The value that `read` makes of an entry, or the default if there is no entry. -/
def optionalEntry {α : Type} (read : TomlValue → Option α) (default : α) (v : Option TomlValue) :
    Option α :=
  match v with
  | none => some default
  | some v => read v

/-- The policy whose lists are given in part. -/
def policyOf? (infra actions members : Option TomlValue) : Option Policy := do
  let d := Policy.default
  return ⟨← optionalEntry (·.texts?) d.infraPaths infra,
    ← optionalEntry (·.texts?) d.actionSegments actions,
    ← optionalEntry (·.texts?) d.optionalImportMembers members⟩

namespace TomlValue

/-- The policy that a value is: a table, or a list of its lists in order. -/
def policy? : TomlValue → Option Policy
  | .table _ es => policyOf? (es.lookup "infra_paths".toList) (es.lookup "action_segments".toList)
      (es.lookup "optional_import_members".toList)
  | .list items => policyOf? items[0]? items[1]? items[2]?
  | _ => none

end TomlValue

namespace Config

/-- The configuration that the entries of a document state. -/
def ofEntries? (es : TomlEntries) : Option Config := do
  let d := Config.default
  return ⟨← optionalEntry (·.text?) d.version (es.lookup "version".toList),
    ← optionalEntry (·.storageMode?) d.storageMode (es.lookup "storage_mode".toList),
    ← optionalEntry (·.texts?) d.fileExtensions (es.lookup "file_extensions".toList),
    ← optionalEntry (·.texts?) d.ignorePatterns (es.lookup "ignore_patterns".toList),
    ← optionalEntry (·.policy?) d.policy (es.lookup "policy".toList)⟩

/-- The configuration that a document states. -/
def read? (t : Text) : Option Config := Toml.read? t >>= ofEntries?

/-! ## Writing -/

/-- A list of texts: on one line unless it has several. -/
def renderList : List Text → Text
  | [] => "[]".toList
  | [t] => '[' :: Toml.encode t ++ [']']
  | ts => "[\n".toList ++ ts.flatMap (fun t => "    ".toList ++ Toml.encode t ++ ",\n".toList) ++
      [']']

def renderEntry (key : String) (value : Text) : Text :=
  key.toList ++ " = ".toList ++ value ++ ['\n']

def render (c : Config) : Text :=
  renderEntry "version" (Toml.encode c.version) ++
    renderEntry "storage_mode" (Toml.encode c.storageMode.name.toList) ++
    renderEntry "file_extensions" (renderList c.fileExtensions) ++
    renderEntry "ignore_patterns" (renderList c.ignorePatterns) ++
    "\n[policy]\n".toList ++
    renderEntry "infra_paths" (renderList c.policy.infraPaths) ++
    renderEntry "action_segments" (renderList c.policy.actionSegments) ++
    renderEntry "optional_import_members" (renderList c.policy.optionalImportMembers)

end Config

end ServiceGate
