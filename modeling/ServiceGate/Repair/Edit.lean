/-
# Edits

How the repairs cut out and replace stretches of a text: a statement that stands alone on its line
goes with the line, and a replacement touches only matches that start in code.
-/
import ServiceGate.Pattern.Match
import ServiceGate.Scan.Balance
import ServiceGate.Scan.Blank
import ServiceGate.Text.Search

namespace ServiceGate.Repair

/-- The offset behind the blanks and tabs at an offset. -/
def behindIndent (t : Text) (n : Nat) : Nat :=
  n + Text.size ((t.after n).takeWhile Text.isIndent)

/-- The offset behind the line ending at an offset; `none` where a line goes on. -/
def behindLineEnd? (t : Text) (n : Nat) : Option Nat :=
  match t.after n with
  | '\r' :: '\n' :: _ => some (n + 2)
  | '\n' :: _ => some (n + 1)
  | [] => some n
  | _ => none

/-- The text without the stretch between two offsets and the blanks behind it; without the whole
line if nothing else stands there. -/
def removeSpan (t : Text) (start stop : Nat) : Text :=
  let stop := behindIndent t stop
  let lineStart := t.lineStart start
  if (Text.trim (t.between lineStart start)).isEmpty then
    match behindLineEnd? t stop with
    | some lineStop => t.splice lineStart lineStop []
    | none => t.splice start stop []
  else t.splice start stop []

/-- Puts `new m` in the place of each match; `from` is the offset behind the last one. -/
def replaceMatches (t : Text) (new : Match → Text) (start : Nat) : List Match → Text
  | [] => t.after start
  | m :: rest => t.between start m.start ++ new m ++ replaceMatches t new m.stop rest

/-- The matches of a pattern that start in code. -/
def codeMatches (p : Pattern) (s : Scan.Source) : List Match :=
  (p.all s.text).filter fun m => s.isCodeAt m.start

/-- Replaces every match of a pattern that starts in code. -/
def replaceInCode (p : Pattern) (new : Match → Text) (t : Text) : Text :=
  replaceMatches t new 0 (codeMatches p (.of t))

/-- Whether a statement goes on behind the line feed at an offset: with a member access. -/
def continuesBehind (t : Text) (n : Nat) : Bool := (t.after n).trimStart.startsWith ".".toList

/-- Where a statement ends whose rest is marked, at a given depth of groups: behind a semicolon or
at a line feed outside of all groups.  The line feed that ends a comment counts. -/
def stopIn (t : Text) (depth : Int) : List Scan.Mark → Nat
  | [] => Text.size t
  | m :: rest =>
    if m.kind == .literal then stopIn t depth rest
    else if m.char == '\n' && depth ≤ 0 then
      if continuesBehind t m.offset then stopIn t depth rest else m.offset
    else if m.kind != .code then stopIn t depth rest
    else if Scan.isOpener m.char then stopIn t (depth + 1) rest
    else if Scan.isCloser m.char then stopIn t (depth - 1) rest
    else if m.char == ';' && depth ≤ 0 then m.offset + 1
    else stopIn t depth rest

/-- Where the statement ends that goes through an offset. -/
def statementStop (t : Text) (n : Nat) : Nat := stopIn t 0 (Scan.marks t n)

/-- The text with a statement on lines of its own at the end. -/
def appendStatement (t statement : Text) : Text :=
  t ++ (if t.isEmpty || t.endsWith "\n".toList then [] else ['\n']) ++ '\n' :: statement ++ ['\n']

end ServiceGate.Repair
