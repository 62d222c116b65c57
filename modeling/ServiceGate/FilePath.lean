/-
# File paths

A path is a text whose components stand between slashes.  Repeated slashes and inner `.` components
do not count; a `.` in front does, and so does `..`, which is not resolved here.  `components` gives
each component together with the rest of the path from it on, so that what is left of a path behind
a base, or in front of its last component, is a part of the text itself.
-/
import ServiceGate.Text.Search

namespace ServiceGate

/-- A component of a path. -/
inductive PathComponent where
  /-- The slash that an absolute path starts with. -/
  | root
  /-- A `.` in front of a relative path. -/
  | here
  /-- A `..`. -/
  | parent
  | name (name : Text)
deriving DecidableEq, Repr

namespace PathComponent

def text : PathComponent → Text
  | .root => ['/']
  | .here => ['.']
  | .parent => ['.', '.']
  | .name n => n

end PathComponent

namespace FilePath

/-- The parts of a path behind its slashes. -/
def behindSlashes : Text → List Text
  | [] => []
  | c :: rest => if c == '/' then rest :: behindSlashes rest else behindSlashes rest

/-- The component that a part of a path starts with, unless it starts with none. -/
def leading? (part : Text) : Option PathComponent :=
  match part.takeWhile (· != '/') with
  | [] => none
  | ['.'] => none
  | ['.', '.'] => some .parent
  | n => some (.name n)

/-- The component that a part of a path starts with, together with the part. -/
def inner? (part : Text) : Option (PathComponent × Text) := (leading? part).map (·, part)

/-- The components of a path, each with the part of the path that it starts. -/
def components (p : Text) : List (PathComponent × Text) :=
  match p with
  | '/' :: _ => (.root, p) :: (behindSlashes p).filterMap inner?
  | ['.'] => [(.here, p)]
  | '.' :: '/' :: _ => (.here, p) :: (behindSlashes p).filterMap inner?
  | _ => (p :: behindSlashes p).filterMap inner?

/-- A path read from its end, less slashes and `.` components at its end. -/
def trimReversed : Text → Text
  | '/' :: rest => trimReversed rest
  | '.' :: '/' :: rest => trimReversed rest
  | ['.'] => []
  | t => t

/-- A path less slashes and `.` components at its end, but for its first component. -/
def trimTail (p : Text) : Text :=
  match p with
  | '/' :: rest => '/' :: (trimReversed rest.reverse).reverse
  | ['.'] => ['.']
  | '.' :: '/' :: rest => '.' :: (trimReversed ('/' :: rest).reverse).reverse
  | _ => (trimReversed p.reverse).reverse

/-- What is left of a list of components behind others. -/
def behind? : List PathComponent → List (PathComponent × Text) → Option
    (List (PathComponent × Text))
  | [], rest => some rest
  | _ :: _, [] => none
  | b :: base, (c, _) :: rest => if b = c then behind? base rest else none

/-- The part of a path behind a base that its components start with. -/
def behindBase? (base p : Text) : Option Text :=
  (behind? ((components base).map (·.1)) (components p)).map fun rest =>
    match rest with
    | [] => []
    | (_, part) :: _ => trimTail part

/-- A path as it is shown in a project: relative to the project's root, with slashes. -/
def relativeTo (root p : Text) : Text :=
  ((behindBase? root p).getD p).map fun c => if c == '\\' then '/' else c

/-- The name of the file that a path ends with. -/
def fileName? (p : Text) : Option Text :=
  match (components p).getLast? with
  | some (.name n, _) => some n
  | _ => none

/-- What follows the last dot of a name that has something in front of it. -/
def extensionOf? (name : Text) : Option Text :=
  let tail := (name.reverse.takeWhile (· != '.')).reverse
  if name = ['.', '.'] ∨ name.length ≤ tail.length + 1 then none else some tail

/-- The extension of the file that a path ends with. -/
def extension? (p : Text) : Option Text := (fileName? p).bind extensionOf?

/-- A path taken from a base, unless it is absolute. -/
def join (base p : Text) : Text :=
  if p.startsWith ['/'] then p
  else if base.isEmpty || base.endsWith ['/'] then base ++ p
  else base ++ '/' :: p

def parent? (p : Text) : Option Text :=
  match (components p).getLast? with
  | none | some (.root, _) => none
  | some (_, part) => some (trimTail (p.take (p.length - part.length)))

/-- A path and at most `n` paths above it, from the inside out. -/
def ancestorsUpTo : Nat → Text → List Text
  | 0, p => [p]
  | n + 1, p =>
    match parent? p with
    | none => [p]
    | some q => p :: ancestorsUpTo n q

/-- A path and all paths above it, from the inside out. -/
def ancestors (p : Text) : List Text := ancestorsUpTo (components p).length p

end FilePath

end ServiceGate
