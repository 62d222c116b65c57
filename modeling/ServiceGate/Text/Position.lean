/-
# Lines and columns

A position counts lines from one, by line feeds, and columns from one, by characters.
-/
import ServiceGate.Text.Basic

namespace ServiceGate

/-- A place in a text as a reader counts it. -/
structure Position where
  /-- The line, from one. -/
  line : Nat
  /-- The column in characters, from one. -/
  column : Nat
deriving DecidableEq, Repr

namespace Position

def advance (p : Position) (c : Char) : Position :=
  if c == '\n' then ⟨p.line + 1, 1⟩ else ⟨p.line, p.column + 1⟩

/-- The position at byte offset `n`; an offset inside a character counts as its start, one past
the end as the end. -/
def walk (p : Position) : Text → Nat → Position
  | [], _ => p
  | c :: rest, n => if c.utf8Size ≤ n then walk (p.advance c) rest (n - c.utf8Size) else p

end Position

def Text.position (t : Text) (n : Nat) : Position := Position.walk ⟨1, 1⟩ t n

end ServiceGate
