/-
# Quoted keys

A string literal between single quotes, written by `encode` and read by `decode?`: a quote or a
backslash inside is preceded by a backslash.  Reading takes any escaped character as itself and
answers how many bytes the literal has.
-/
import ServiceGate.Text.Basic

namespace ServiceGate.Quoted

/-- One character as it is written between single quotes. -/
def escape (c : Char) : Text :=
  if c == '\\' || c == '\'' then ['\\', c] else [c]

/-- A text as a literal between single quotes. -/
def encode (t : Text) : Text := '\'' :: t.flatMap escape ++ ['\'']

/-- The contents of a literal and the byte offset behind its closing quote, where the reading has
come to offset `n`. -/
def decodeRest? (quote : Char) (n : Nat) : Text → Option (Text × Nat)
  | [] => none
  | c :: rest =>
    if c == '\\' then
      match rest with
      | [] => none
      | d :: rest =>
        (decodeRest? quote (n + c.utf8Size + d.utf8Size) rest).map fun r => (d :: r.1, r.2)
    else if c == quote then some ([], n + c.utf8Size)
    else (decodeRest? quote (n + c.utf8Size) rest).map fun r => (c :: r.1, r.2)

/-- The contents of the literal that a text opens with, and how many bytes it has. -/
def decode? (quote : Char) : Text → Option (Text × Nat)
  | [] => none
  | c :: rest => decodeRest? quote c.utf8Size rest

end ServiceGate.Quoted
