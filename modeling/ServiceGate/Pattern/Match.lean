/-
# Matching a pattern against a text

`Pattern.run` looks for a way to read a stretch of text that lets the continuation succeed, and
takes the first such way in the order the pattern prefers: alternatives from left to right, a greedy
repetition going on before it stops.  A repetition goes on only where it takes a character, so the
number of rounds is bounded by the length of the text.

`first?` finds the leftmost match, `all` the matches from left to right, each starting where the one
before has ended or later.
-/
import ServiceGate.Pattern.Basic

namespace ServiceGate

/-- A place in a text with what surrounds it. -/
structure Cursor where
  /-- The character in front. -/
  behind : Option Char
  /-- The byte offset. -/
  offset : Nat
  /-- What follows. -/
  rest : Text

/-- The stretch that a numbered group has read. -/
structure Capture where
  group : Nat
  start : Nat
  stop : Nat
  text : Text
deriving DecidableEq, Repr

/-- How far the reading of a pattern has come. -/
structure Reading where
  cursor : Cursor
  /-- The groups read so far, the latest first. -/
  captures : List Capture

/-- A stretch of text that a pattern describes. -/
structure Match where
  start : Nat
  stop : Nat
  text : Text
  captures : List Capture
deriving DecidableEq, Repr

namespace Cursor

/-- The stretch between two places of one text. -/
def textTo (c d : Cursor) : Text := c.rest.before (d.offset - c.offset)

def atWordEdge (c : Cursor) : Bool :=
  c.behind.any CharClass.isWord != c.rest.head?.any CharClass.isWord

def atLineStart (c : Cursor) : Bool := c.behind.all (· == '\n')

/-- The place behind the next character, if that is of class `p`. -/
def step? (c : Cursor) (p : Char → Bool) : Option Cursor :=
  match c.rest with
  | [] => none
  | x :: rest => if p x then some ⟨some x, c.offset + x.utf8Size, rest⟩ else none

end Cursor

namespace Reading

/-- Moves on past one character of class `p`. -/
def step? (r : Reading) (p : Char → Bool) : Option Reading :=
  (r.cursor.step? p).map fun c => { r with cursor := c }

/-- Keeps the stretch since `start` as a group. -/
def keep (r : Reading) (number : Nat) (start : Cursor) : Reading :=
  { r with captures :=
      ⟨number, start.offset, r.cursor.offset, start.textTo r.cursor⟩ :: r.captures }

end Reading

namespace Pattern

/-- Repeats a reading at most `rounds` times, each round taking a character. -/
def repeated (body : (Reading → Option Reading) → Reading → Option Reading) (greedy : Bool) :
    (rounds : Nat) → (Reading → Option Reading) → Reading → Option Reading
  | 0, k, r => k r
  | rounds + 1, k, r =>
    let again := fun _ : Unit =>
      body (fun r' =>
        if r.cursor.offset < r'.cursor.offset then repeated body greedy rounds k r' else none) r
    if greedy then (again ()).orElse fun _ => k r else (k r).orElse again

/-- Reads a pattern and goes on with `k`; `rounds` bounds each repetition. -/
def run (rounds : Nat) : Pattern → (Reading → Option Reading) → Reading → Option Reading
  | empty, k, r => k r
  | char p, k, r => (r.step? p).bind k
  | textStart, k, r => if r.cursor.behind.isNone then k r else none
  | lineStart, k, r => if r.cursor.atLineStart then k r else none
  | wordEdge, k, r => if r.cursor.atWordEdge then k r else none
  | seq p q, k, r => p.run rounds (q.run rounds k) r
  | alt p q, k, r => (p.run rounds k r).orElse fun _ => q.run rounds k r
  | many greedy p, k, r => repeated (p.run rounds) greedy rounds k r
  | capture number p, k, r => p.run rounds (fun r' => k (r'.keep number r.cursor)) r

/-- The preferred match that starts at a place. -/
def matchAt? (p : Pattern) (rounds : Nat) (c : Cursor) : Option Match :=
  (p.run rounds some ⟨c, []⟩).map fun r =>
    ⟨c.offset, r.cursor.offset, c.textTo r.cursor, r.captures⟩

/-- The leftmost match in a text that starts at offset `n` behind a character. -/
def firstFrom? (p : Pattern) (rounds : Nat) (behind : Option Char) (n : Nat) :
    Text → Option Match
  | [] => p.matchAt? rounds ⟨behind, n, []⟩
  | c :: rest =>
    (p.matchAt? rounds ⟨behind, n, c :: rest⟩).orElse fun _ =>
      firstFrom? p rounds (some c) (n + c.utf8Size) rest

/-- The matches from offset `free` on, in a text that starts at offset `n` behind a character. -/
def allFrom (p : Pattern) (rounds free : Nat) (behind : Option Char) (n : Nat) :
    Text → List Match
  | [] => if free ≤ n then (p.matchAt? rounds ⟨behind, n, []⟩).toList else []
  | c :: rest =>
    match if free ≤ n then p.matchAt? rounds ⟨behind, n, c :: rest⟩ else none with
    | some m => m :: allFrom p rounds m.stop (some c) (n + c.utf8Size) rest
    | none => allFrom p rounds free (some c) (n + c.utf8Size) rest

def first? (p : Pattern) (t : Text) : Option Match := p.firstFrom? (t.length + 1) none 0 t

/-- The matches from left to right, without overlap. -/
def all (p : Pattern) (t : Text) : List Match := p.allFrom (t.length + 1) 0 none 0 t

/-- Whether the pattern describes any stretch of the text. -/
def occursIn (p : Pattern) (t : Text) : Bool := (p.first? t).isSome

end Pattern

namespace Match

/-- The stretch that a group has read, if the match went through it. -/
def group? (m : Match) (number : Nat) : Option Capture :=
  m.captures.find? (·.group == number)

/-- The text that a group has read, empty if the match did not go through it. -/
def groupText (m : Match) (number : Nat) : Text :=
  ((m.group? number).map (·.text)).getD []

end Match

end ServiceGate
