/-
# The configuration of a project

What the files of a service are, which of them are left out, and how the rest is judged.  `skips`
decides which files are left out: tests, declarations and the configuration of tools by their names,
files of another kind by their extensions, and whatever a pattern covers.  A pattern covers a path
if it is one of the path's components, or if it has a slash and occurs in the path.
-/
import ServiceGate.FilePath
import ServiceGate.Policy
import ServiceGate.Storage
import ServiceGate.Version

namespace ServiceGate

/-- The configuration of a project. -/
structure Config where
  version : Text
  storageMode : StorageMode
  /-- The extensions of the files of a service. -/
  fileExtensions : List Text
  ignorePatterns : List Text
  policy : Policy
deriving DecidableEq, Repr

namespace Config

/-- The name of the file that holds a project's configuration. -/
def fileName : Text := ".sentinelrc.toml".toList

/-- The configuration of a project that states none. -/
def default : Config where
  version := toolVersion.toList
  storageMode := .none
  fileExtensions := ["ts", "js"].map String.toList
  ignorePatterns := ["node_modules", "dist", "build", ".git", "coverage"].map String.toList
  policy := .default

instance : Inhabited Config := ⟨default⟩

/-- Whether a name is that of a test, of declarations, or of the configuration of a tool. -/
def isToolFile (name : Text) : Bool :=
  name.contains ".spec.".toList || name.contains ".test.".toList || name.endsWith ".d.ts".toList ||
    name.contains ".config.".toList

def patternCovers (path pattern : Text) : Bool :=
  ((FilePath.components path).any fun c => c.1.text == pattern) ||
    (pattern.any (· == '/') && path.contains pattern)

def skips (config : Config) (path : Text) : Bool :=
  isToolFile ((FilePath.fileName? path).getD []) ||
    !(FilePath.extension? path).any config.fileExtensions.contains ||
    config.ignorePatterns.any (patternCovers path)

end Config

end ServiceGate
