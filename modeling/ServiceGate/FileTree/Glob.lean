/-
# Globs

The patterns of ignore files.  A glob is matched against the whole of a path, byte by byte: `?`
stands for a byte and `*` for a run of bytes without slashes, `**` between slashes or at an end for
any directories, `[…]` for a byte of a class and `\x7ba,b\x7d` for one of several globs.  A
backslash takes away the meaning of what follows.  A glob with alternatives is kept as all the
globs without alternatives that it stands for.
-/
import ServiceGate.Text.Basic

namespace ServiceGate

/-- A stretch of a glob. -/
inductive GlobStep where
  | byte (value : UInt8)
  /-- One byte other than a slash. -/
  | any
  /-- A run of bytes other than slashes. -/
  | run
  /-- A byte of a class, or outside it. -/
  | oneOf (negated : Bool) (ranges : List (UInt8 × UInt8))
  /-- Any directories at the start. -/
  | leading
  /-- A slash and anything behind it. -/
  | trailing
  /-- A slash, with any directories behind it. -/
  | between
deriving DecidableEq, Repr

namespace Glob

/-- The slash between the names of a path. -/
def slash : UInt8 := 47

def bytes (t : Text) : List UInt8 := t.flatMap String.utf8EncodeChar

/-! ## Matching -/

/-- Whether `k` takes what is left of some bytes behind a run of the class `p`. -/
def behindRun (p : UInt8 → Bool) (k : List UInt8 → Bool) : List UInt8 → Bool
  | [] => k []
  | b :: rest => k (b :: rest) || (p b && behindRun p k rest)

/-- Whether `k` takes what is left of some bytes behind one of their slashes. -/
def behindSlash (k : List UInt8 → Bool) : List UInt8 → Bool
  | [] => false
  | b :: rest => (b == slash && k rest) || behindSlash k rest

/-- Whether the steps match all of some bytes. -/
def stepsMatch : List GlobStep → List UInt8 → Bool
  | [], s => s.isEmpty
  | .byte c :: g, b :: s => b == c && stepsMatch g s
  | .any :: g, b :: s => b != slash && stepsMatch g s
  | .oneOf negated ranges :: g, b :: s =>
    (ranges.any fun r => r.1 ≤ b && b ≤ r.2) != negated && stepsMatch g s
  | .run :: g, s => behindRun (· != slash) (stepsMatch g) s
  | .leading :: g, s => stepsMatch g s || behindSlash (stepsMatch g) s
  | .trailing :: g, b :: s => b == slash && behindRun (fun _ => true) (stepsMatch g) s
  | .between :: g, b :: s => b == slash && (stepsMatch g s || behindSlash (stepsMatch g) s)
  | _ :: _, [] => false

/-- Whether one of several globs matches a path; `**` alone matches every path. -/
def matchesPath (ways : List (List GlobStep)) (path : Text) : Bool :=
  ways == [[.leading]] || ways.any fun g => stepsMatch g (bytes path)

/-! ## Reading -/

/-- A glob, or one of its alternatives, that has been read in part: the steps come last first. -/
structure Branch where
  started : Bool
  ways : List (List GlobStep)

namespace Branch

def empty : Branch := ⟨false, [[]]⟩

def push (b : Branch) (steps : List GlobStep) : Branch :=
  ⟨true, b.ways.map (steps.reverse ++ ·)⟩

/-- A branch with its last step replaced. -/
def replaceLast (b : Branch) (f : GlobStep → GlobStep) : Branch :=
  ⟨true, b.ways.map fun
    | [] => []
    | s :: rest => f s :: rest⟩

/-- A branch with one of several alternatives behind it; empty ones do not count. -/
def pushOneOf (b : Branch) (alternatives : List Branch) : Branch :=
  match (alternatives.map (·.ways)).filter (· != [[]]) with
  | [] => { b with started := true }
  | ways => ⟨true, b.ways.flatMap fun before => ways.flatten.map (· ++ before)⟩

end Branch

/-- A glob that has been read in part: the branch being read, and for each open brace, from the
inside out, the alternatives in front of it and the branch that the brace stands in. -/
structure Draft where
  current : Branch
  outer : List (List Branch × Branch)

namespace Draft

def push (d : Draft) (steps : List GlobStep) : Draft :=
  { d with current := d.current.push steps }

/-- A draft with a character read that stands for itself. -/
def pushChar (d : Draft) (c : Char) : Draft := d.push ((bytes [c]).map .byte)

def openGroup (d : Draft) : Draft := ⟨.empty, ([], d.current) :: d.outer⟩

def nextBranch (d : Draft) : Draft :=
  match d.outer with
  | [] => d.pushChar ','
  | (before, holder) :: rest => ⟨.empty, (before ++ [d.current], holder) :: rest⟩

def closeGroup? (d : Draft) : Option Draft :=
  match d.outer with
  | [] => none
  | (before, holder) :: rest => some ⟨holder.pushOneOf (before ++ [d.current]), rest⟩

end Draft

/-- The bytes between two characters, as classes of bytes count them. -/
def byteRanges (first last : Char) : List (UInt8 × UInt8) :=
  let firsts := bytes [first]
  let lasts := bytes [last]
  if first = last then firsts.map fun b => (b, b)
  else firsts.dropLast.map (fun b => (b, b)) ++
    (firsts.getLast?.toList.zip (lasts.take 1)) ++ (lasts.drop 1).map fun b => (b, b)

/-- The ranges of a class up to its closing bracket, and the rest.  A bracket or a dash at the start
stands for itself, and so does a dash at the end. -/
def readRanges? (inRange : Bool) : List (Char × Char) → Text → Option (List (Char × Char) × Text)
  | [], c :: rest => readRanges? false [(c, c)] rest
  | _, [] => none
  | (a, b) :: before, c :: rest =>
    if inRange then
      if c = ']' then some (('-', '-') :: (a, b) :: before, rest)
      else if c < a then none
      else readRanges? false ((a, c) :: before) rest
    else if c = ']' then some ((a, b) :: before, rest)
    else if c = '-' then readRanges? true ((a, b) :: before) rest
    else readRanges? false ((c, c) :: (a, b) :: before) rest

/-- The class whose opening bracket has been read, and the rest. -/
def readClass? (t : Text) : Option (GlobStep × Text) :=
  let (negated, body) := match t with
    | '!' :: rest => (true, rest)
    | '^' :: rest => (true, rest)
    | rest => (false, rest)
  (readRanges? false [] body).map fun (ranges, rest) =>
    (.oneOf negated (ranges.flatMap fun (a, b) => byteRanges a b), rest)

/-- What two stars stand for between slashes: at the start of the glob nothing changes, and behind
a slash they take the slash in. -/
def directories (atEnd : Bool) : GlobStep → GlobStep
  | .leading => .leading
  | .trailing => .trailing
  | _ => if atEnd then .trailing else .between

/-- Reads two stars that stand behind the character `last`; answers with the draft and the rest. -/
def readStars (last : Option Char) (d : Draft) (rest : Text) : Draft × Text :=
  if !d.current.started then
    match rest with
    | [] => (d.push [.leading], [])
    | '/' :: rest => (d.push [.leading], rest)
    | rest => (d.push [.run], rest)
  else if last ≠ some '/' then (d.push [.run], rest)
  else
    match rest with
    | [] => ({ d with current := d.current.replaceLast (directories true) }, [])
    | '/' :: rest => ({ d with current := d.current.replaceLast (directories false) }, rest)
    | c :: rest =>
      if (c = ',' ∨ c = '\x7d') ∧ d.outer ≠ [] then
        ({ d with current := d.current.replaceLast (directories true) }, c :: rest)
      else (d.push [.run], c :: rest)

/-- Reads a glob whose last character so far was `last`, in at most `n` steps. -/
def readFrom? : Nat → Option Char → Draft → Text → Option (List (List GlobStep))
  | 0, _, _, _ => none
  | _, _, d, [] => if d.outer.isEmpty then some (d.current.ways.map List.reverse) else none
  | n + 1, last, d, c :: rest =>
    match c, rest with
    | '?', _ => readFrom? n (some c) (d.push [.any]) rest
    | '*', '*' :: rest =>
      let (d, left) := readStars last d rest
      readFrom? n (some (if left.length < rest.length then '/' else '*')) d left
    | '*', _ => readFrom? n (some c) (d.push [.run]) rest
    | '[', _ => (readClass? rest).bind fun (s, rest) => readFrom? n (some ']') (d.push [s]) rest
    | '\x7b', _ => readFrom? n (some c) d.openGroup rest
    | '\x7d', _ => d.closeGroup?.bind fun d => readFrom? n (some c) d rest
    | ',', _ => readFrom? n (some c) d.nextBranch rest
    | '\\', e :: rest => readFrom? n (some e) (d.pushChar e) rest
    | '\\', [] => none
    | _, _ => readFrom? n (some c) (d.pushChar c) rest

/-- The globs without alternatives that a glob stands for. -/
def read? (t : Text) : Option (List (List GlobStep)) :=
  readFrom? (t.length + 1) none ⟨.empty, []⟩ t

end Glob

end ServiceGate
