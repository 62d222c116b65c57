/-
# The files of a target

A target is a file, or a directory whose files are taken unless they are left out.  Directories and
files are left out by ignore files, the nearest one that mentions them deciding: `.ignore` first,
and where a repository is, `.gitignore` and the repository's own list, up to the repository's top.
A directory that is left out takes everything below it along.  The configuration has the last word
on each file.

Files come in the order of their places, name by name.
-/
import ServiceGate.Config.Basic
import ServiceGate.FileTree.Basic
import ServiceGate.FileTree.IgnoreFile
import ServiceGate.Project

namespace ServiceGate

namespace FileTree

/-- The rest of a place below a directory, as a path. -/
def pathBelow (directory p : Place) : Text := Text.join ['/'] (p.drop directory.length)

/-- What an ignore file of a directory says of a place below. -/
def mentionIn? (tree : FileTree) (file : List Text) (isDirectory : Bool) (p directory : Place) :
    Option Mention :=
  (tree.read? (directory ++ file)).bind fun t =>
    IgnoreRule.decide? (IgnoreRule.ofText t) (pathBelow directory p) isDirectory

/-- Whether a directory is the top of a repository. -/
def isRepository (tree : FileTree) (directory : Place) : Bool :=
  tree.isThere (directory ++ [".git".toList])

/-- The directories that hold a place, from the inside out. -/
def holdersUp (p : Place) : List Place := (holders p).reverse

/-- The directories whose repository lists count for a place: those up to the top of the innermost
repository, if the place lies in one at all. -/
def repositoryHolders (tree : FileTree) (p : Place) : List Place :=
  let up := holdersUp p
  let inside := up.takeWhile (!tree.isRepository ·)
  if inside.length = up.length then [] else up.take (inside.length + 1)

/-- What the ignore files say of a place. -/
def mention? (tree : FileTree) (isDirectory : Bool) (p : Place) : Option Mention :=
  (holdersUp p).findSome? (tree.mentionIn? [".ignore".toList] isDirectory p) <|>
    (tree.repositoryHolders p).findSome?
      (tree.mentionIn? [".gitignore".toList] isDirectory p) <|>
    (tree.repositoryHolders p).findSome?
      (tree.mentionIn? [".git".toList, "info".toList, "exclude".toList] isDirectory p)

/-- Whether a file below a directory is left out by ignore files, itself or with a directory that
holds it. -/
def isIgnoredBelow (tree : FileTree) (directory p : Place) : Bool :=
  tree.mention? false p == some .ignored ||
    ((holders p).drop (directory.length + 1)).any fun d => tree.mention? true d == some .ignored

/-- The places of the files below a directory, in order. -/
def filesBelow (tree : FileTree) (directory : Place) : List Place :=
  ((tree.files.map (·.1)).filter fun p => directory.isPrefixOf p && p != directory).mergeSort
    fun p q => !decide (q < p)

end FileTree

def sourcePaths (tree : FileTree) (config : Config) (target : Text) : List Text :=
  if tree.isFileAt target then [target]
  else
    match tree.locate? target with
    | none => []
    | some directory =>
      let found := (tree.filesBelow directory).filter (!tree.isIgnoredBelow directory ·)
      (found.map fun p => FilePath.join target (FileTree.pathBelow directory p)).filter
        (!config.skips ·)

/-- The files of a target, by their paths relative to the project's root. -/
def loadSources (tree : FileTree) (root : Text) (paths : List Text) : Except Text
    (List SourceFile) :=
  paths.mapM fun path =>
    match tree.readPath? path with
    | some t => .ok ⟨FilePath.relativeTo root path, t⟩
    | none => .error path

end ServiceGate
