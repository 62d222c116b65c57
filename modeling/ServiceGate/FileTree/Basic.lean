/-
# File trees

A file tree is a map from places to texts.  A place is the list of names that leads to it from the
top.  A directory is there if it was made, or if something lies below it.  `locate?` follows a path
as text, which may pass only through directories.

`read?_write` and `read?_write_of_ne` say what a reader finds behind a writer.
-/
import ServiceGate.Text.Search

namespace ServiceGate

/-- The names that lead from the top of a tree to a file or a directory. -/
abbrev Place := List Text

/-- The files of a tree with their texts, and the directories made in it. -/
structure FileTree where
  files : List (Place × Text)
  directories : List Place
deriving DecidableEq, Repr

/-- Why a file cannot be written. -/
inductive WriteFault where
  /-- Something that should hold the file is itself a file. -/
  | fileInTheWay
  /-- The file's place is taken by a directory. -/
  | isDirectory
deriving DecidableEq, Repr

namespace FileTree

def ofDirectory (d : Place) : FileTree := ⟨[], [d]⟩

def read? (tree : FileTree) (p : Place) : Option Text := tree.files.lookup p

def isFile (tree : FileTree) (p : Place) : Bool := (tree.read? p).isSome

/-- Whether something lies below a place. -/
def hasBelow (tree : FileTree) (p : Place) : Bool :=
  tree.files.any fun f => p.isPrefixOf f.1 && f.1 != p

/-- Whether there is a directory at a place. -/
def isDirectory (tree : FileTree) (p : Place) : Bool :=
  p.isEmpty || tree.directories.any p.isPrefixOf || tree.hasBelow p

/-- Whether there is anything at a place. -/
def isThere (tree : FileTree) (p : Place) : Bool := tree.isFile p || tree.isDirectory p

/-- The map with the text of a place replaced, or put at the end. -/
def putFile (p : Place) (t : Text) : List (Place × Text) → List (Place × Text)
  | [] => [(p, t)]
  | f :: rest => if f.1 = p then (p, t) :: rest else f :: putFile p t rest

/-- The tree with a file written, whatever stands in the way. -/
def write (tree : FileTree) (p : Place) (t : Text) : FileTree :=
  { tree with files := putFile p t tree.files }

/-- The places of the directories that hold a place, from the top. -/
def holders (p : Place) : List Place := (List.range p.length).map p.take

/-- What stands in the way of a file at a place. -/
def obstacle? (tree : FileTree) (p : Place) : Option WriteFault :=
  if (holders p).any tree.isFile then some .fileInTheWay
  else if tree.isDirectory p then some .isDirectory
  else none

/-- Writes a file, making the directories that hold it. -/
def tryWrite (tree : FileTree) (p : Place) (t : Text) : Except WriteFault FileTree :=
  match tree.obstacle? p with
  | some fault => .error fault
  | none => .ok (tree.write p t)

/-- Goes from a directory to what a part of a path names. -/
def step? (tree : FileTree) (p : Place) (name : Text) : Option Place :=
  if !tree.isDirectory p then none
  else if name.isEmpty || name == ['.'] then some p
  else if name == ['.', '.'] then some p.dropLast
  else some (p ++ [name])

def follow? (tree : FileTree) (path : Text) : Option Place :=
  (path.pieces '/').foldlM tree.step? []

/-- The place of the file or directory that a path leads to. -/
def locate? (tree : FileTree) (path : Text) : Option Place :=
  (tree.follow? path).bind fun p => if tree.isThere p then some p else none

/-- The text of the file that a path leads to. -/
def readPath? (tree : FileTree) (path : Text) : Option Text :=
  (tree.locate? path).bind tree.read?

def isFileAt (tree : FileTree) (path : Text) : Bool := (tree.readPath? path).isSome

def isThereAt (tree : FileTree) (path : Text) : Bool := (tree.locate? path).isSome

theorem lookup_putFile_self (p : Place) (t : Text) (files : List (Place × Text)) :
    (putFile p t files).lookup p = some t := by
  induction files with
  | nil => simp [putFile]
  | cons f rest ih =>
    obtain ⟨k, b⟩ := f
    unfold putFile
    split
    · simp
    · next h =>
      have : (p == k) = false := beq_eq_false_iff_ne.2 (Ne.symm h)
      simp [List.lookup_cons, this, ih]

theorem lookup_putFile_of_ne {p q : Place} (h : q ≠ p) (t : Text) (files : List (Place × Text)) :
    (putFile p t files).lookup q = files.lookup q := by
  have hq : (q == p) = false := beq_eq_false_iff_ne.2 h
  induction files with
  | nil => simp [putFile, List.lookup_cons, hq]
  | cons f rest ih =>
    obtain ⟨k, b⟩ := f
    unfold putFile
    split
    · next hf =>
      subst hf
      simp [List.lookup_cons, hq]
    · simp only [List.lookup_cons, ih]

theorem read?_write (tree : FileTree) (p : Place) (t : Text) :
    (tree.write p t).read? p = some t :=
  lookup_putFile_self p t tree.files

theorem read?_write_of_ne (tree : FileTree) {p q : Place} (h : q ≠ p) (t : Text) :
    (tree.write p t).read? q = tree.read? q :=
  lookup_putFile_of_ne h t tree.files

end FileTree

end ServiceGate
