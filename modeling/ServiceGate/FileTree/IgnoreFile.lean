/-
# Ignore files

Each line of an ignore file is a rule on the paths below its directory: a glob that leaves them out,
or with `!` in front keeps them.  A rule whose glob has a slash other than at its end is bound to
the directory; any other applies at every depth.  A slash at the end restricts a rule to
directories.  The last rule that applies decides.
-/
import ServiceGate.FileTree.Glob
import ServiceGate.Text.Search

namespace ServiceGate

/-- What an ignore file says of a path. -/
inductive Mention where
  | ignored
  | kept
deriving DecidableEq, Repr

/-- A rule of an ignore file. -/
structure IgnoreRule where
  mention : Mention
  onlyDirectories : Bool
  globs : List (List GlobStep)

namespace IgnoreRule

/-- Whether a rule applies to a path relative to its directory. -/
def applies (rule : IgnoreRule) (path : Text) (isDirectory : Bool) : Bool :=
  (isDirectory || !rule.onlyDirectories) && Glob.matchesPath rule.globs path

/-- Whether a glob already applies at every depth. -/
def isAnyDepth (glob : Text) : Bool := glob.startsWith "**/".toList || glob == "**".toList

/-- A glob with the directories in front of it that it leaves open, and with what lies below a
directory spelled out. -/
def complete (bound : Bool) (glob : Text) : Text :=
  let glob := if bound || glob.any (· == '/') || isAnyDepth glob then glob
    else "**/".toList ++ glob
  if glob.endsWith "/**".toList then glob ++ "/*".toList else glob

/-- The rule of a glob, which may end with a slash; `bound` if a slash stood in front of it. -/
def ofGlob? (mention : Mention) (bound : Bool) (glob : Text) : Option IgnoreRule :=
  match glob.reverse with
  | '/' :: '\\' :: rest => (Glob.read? (complete bound rest.reverse)).map (⟨mention, true, ·⟩)
  | '/' :: rest => (Glob.read? (complete bound rest.reverse)).map (⟨mention, true, ·⟩)
  | _ => (Glob.read? (complete bound glob)).map (⟨mention, false, ·⟩)

/-- The rule of a glob that may be bound by a slash in front of it. -/
def ofBinding? (mention : Mention) : Text → Option IgnoreRule
  | '/' :: glob => ofGlob? mention true glob
  | glob => ofGlob? mention false glob

/-- The rule of a line: comments, blank lines and globs that cannot be read have none.  A backslash
in front of `#` or `!` takes away its meaning, and one in front of a blank at the end keeps it. -/
def ofLine? (line : Text) : Option IgnoreRule :=
  if line.startsWith ['#'] then none
  else
    match if line.endsWith "\\ ".toList then line else Text.trimEnd line with
    | [] => none
    | '\\' :: '!' :: rest => ofGlob? .ignored false ('!' :: rest)
    | '\\' :: '#' :: rest => ofGlob? .ignored false ('#' :: rest)
    | '!' :: rest => ofBinding? .kept rest
    | line => ofBinding? .ignored line

/-- The rules of an ignore file, which a byte order mark may precede. -/
def ofText (t : Text) : List IgnoreRule :=
  let body := match t with
    | '\uFEFF' :: rest => rest
    | t => t
  (Text.lines body).filterMap ofLine?

/-- What the rules of an ignore file say of a path relative to its directory. -/
def decide? (rules : List IgnoreRule) (path : Text) (isDirectory : Bool) : Option Mention :=
  ((rules.filter (·.applies path isDirectory)).getLast?).map (·.mention)

end IgnoreRule

end ServiceGate
