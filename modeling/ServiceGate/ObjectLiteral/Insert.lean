/-
# Adding an entry to an object literal

A new entry goes behind the last one, on a line of its own if the last one has one.  A literal
without entries, or whose last entry has nothing but white space and comments for a value, is
written anew with the entry alone.
-/
import ServiceGate.ObjectLiteral.Basic

namespace ServiceGate.ObjectLiteral

/-- The offset behind the last character of an entry's value that is neither comment nor white
space. -/
def behindValue? (t : Text) (e : ObjectEntry) : Option Nat :=
  let marks := (Scan.marks t e.valueStart).takeWhile fun m => m.offset < e.valueStop
  ((marks.filter fun m => m.kind != .comment && !CharClass.isSpace m.char).getLast?).map fun m =>
    m.offset + m.char.utf8Size

/-- The blanks and tabs that the line of an offset starts with. -/
def lineIndent (t : Text) (n : Nat) : Text := (t.after (t.lineStart n)).takeWhile Text.isIndent

/-- What stands between the last entry and a new one. -/
def separator (t : Text) (o : ObjectLiteral) (last : ObjectEntry) : Text :=
  if (t.between o.openAt last.keyAt).any (· == '\n') then ",\n".toList ++ lineIndent t last.keyAt
  else ", ".toList

/-- Writes the literal anew with one entry. -/
def replaceWith (t : Text) (o : ObjectLiteral) (entry : Text) : Text :=
  t.splice o.openAt (o.closeAt + 1) ("\x7b ".toList ++ entry ++ " \x7d".toList)

/-- The text with an entry added to the literal. -/
def insertEntry (t : Text) (o : ObjectLiteral) (entry : Text) : Text :=
  match o.entries.getLast? with
  | none => replaceWith t o entry
  | some last =>
    match behindValue? t last with
    | none => replaceWith t o entry
    | some n => t.insertAt n (separator t o last ++ entry)

end ServiceGate.ObjectLiteral
