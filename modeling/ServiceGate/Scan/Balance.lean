/-
# Balance and matching brackets

A text is balanced when every bracket in code is closed, none closes before it opens, and no
literal is left open; the three kinds of bracket are counted apart.  `matchingClose?` finds the
bracket that closes the one at an offset, counting brackets of that kind alone.
-/
import ServiceGate.Scan.Mark

namespace ServiceGate.Scan

/-- The bracket that closes an opening one. -/
def closer? : Char → Option Char
  | '\x7b' => some '\x7d'
  | '[' => some ']'
  | '(' => some ')'
  | _ => none

def isOpener (c : Char) : Bool := (closer? c).isSome

def isCloser (c : Char) : Bool := c == '\x7d' || c == ']' || c == ')'

/-- How many brackets of each kind are open. -/
structure Depths where
  braces : Nat
  squares : Nat
  parens : Nat
deriving DecidableEq, Repr

def pred? : Nat → Option Nat
  | 0 => none
  | n + 1 => some n

/-- The depths behind a code character; `none` when it closes what was not open. -/
def Depths.track (d : Depths) (c : Char) : Option Depths :=
  match c with
  | '\x7b' => some { d with braces := d.braces + 1 }
  | '[' => some { d with squares := d.squares + 1 }
  | '(' => some { d with parens := d.parens + 1 }
  | '\x7d' => (pred? d.braces).map fun n => { d with braces := n }
  | ']' => (pred? d.squares).map fun n => { d with squares := n }
  | ')' => (pred? d.parens).map fun n => { d with parens := n }
  | _ => some d

/-- The depths behind a row of code characters. -/
def Depths.trackAll (d : Depths) : Text → Option Depths
  | [] => some d
  | c :: rest => (d.track c).bind (·.trackAll rest)

/-- Whether brackets and literals of the text are all closed, in order. -/
def balanced (t : Text) : Bool :=
  Depths.trackAll ⟨0, 0, 0⟩ ((codeChars t 0).map (·.2)) == some ⟨0, 0, 0⟩ &&
    !(finalState t).inLiteral

/-- The offset of the closer that leaves `depth` groups open around it. -/
def closeIn (opener closer : Char) (depth : Nat) : List (Nat × Char) → Option Nat
  | [] => none
  | (n, c) :: rest =>
    if c == opener then closeIn opener closer (depth + 1) rest
    else if c == closer then
      match depth with
      | 0 => some n
      | depth + 1 => closeIn opener closer depth rest
    else closeIn opener closer depth rest

/-- The offset of the bracket that closes the one at byte offset `n`. -/
def matchingClose? (t : Text) (n : Nat) : Option Nat :=
  match t.after n with
  | [] => none
  | opener :: _ =>
    match closer? opener with
    | none => none
    | some closer => closeIn opener closer 0 (codeChars t (n + 1))

end ServiceGate.Scan
