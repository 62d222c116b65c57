/-
# Looking for, cutting at and joining pieces of a text

White space is White_Space of any script throughout.  `lines` takes a line's ending off, be it a
line feed or a carriage return with a line feed.
-/
import ServiceGate.Text.Basic
import ServiceGate.CharClass.Basic

namespace ServiceGate.Text

open CharClass

/-! ## Ends -/

/-- Whether the text begins with `head`. -/
def startsWith (t head : Text) : Bool := head.isPrefixOf t

def endsWith (t tail : Text) : Bool := tail.isSuffixOf t

/-- The rest behind `head`, if the text begins with it. -/
def stripStart? (head : Text) : Text → Option Text :=
  match head with
  | [] => some
  | h :: head => fun
    | [] => none
    | c :: rest => if c == h then stripStart? head rest else none

/-- The text less the characters of a class at its end. -/
def trimEndWhere (p : Char → Bool) (t : Text) : Text := (t.reverse.dropWhile p).reverse

/-- The text less white space at its start. -/
def trimStart (t : Text) : Text := t.dropWhile isSpace

/-- The text less white space at its end. -/
def trimEnd (t : Text) : Text := trimEndWhere isSpace t

/-- The text less white space at both ends. -/
def trim (t : Text) : Text := trimEnd (trimStart t)

/-- A blank or a tab, the white space that indents a line. -/
def isIndent (c : Char) : Bool := c == ' ' || c == '\t'

/-! ## Places -/

/-- The byte offset of the first occurrence of `needle`, counted from `n` at the start. -/
def findFrom? (needle : Text) (n : Nat) : Text → Option Nat
  | [] => if needle.isEmpty then some n else none
  | c :: rest =>
    if needle.isPrefixOf (c :: rest) then some n else findFrom? needle (n + c.utf8Size) rest

/-- The byte offset of the first occurrence of `needle`. -/
def find? (t needle : Text) : Option Nat := findFrom? needle 0 t

/-- Whether `needle` occurs in the text. -/
def contains (t needle : Text) : Bool := (t.find? needle).isSome

/-- The byte offset of the last character of a class. -/
def lastWhere? (t : Text) (p : Char → Bool) : Option Nat :=
  ((t.indexed 0).reverse.find? fun (_, c) => p c).map (·.1)

/-- The byte offset at which the line of offset `n` starts. -/
def lineStart (t : Text) (n : Nat) : Nat :=
  match (t.before n).lastWhere? (· == '\n') with
  | some i => i + 1
  | none => 0

/-! ## Pieces -/

/-- The pieces between the characters of a class; one more than there are such characters. -/
def splitWhere (p : Char → Bool) : Text → List Text
  | [] => [[]]
  | c :: rest =>
    if p c then [] :: splitWhere p rest
    else
      match splitWhere p rest with
      | [] => [[c]]
      | piece :: pieces => (c :: piece) :: pieces

/-- The pieces between the occurrences of one character. -/
def pieces (t : Text) (sep : Char) : List Text := splitWhere (· == sep) t

/-- The words between stretches of white space. -/
def words (t : Text) : List Text := (splitWhere isSpace t).filter (!·.isEmpty)

/-- The parts in front of and behind the first occurrence of a character. -/
def splitOnce? (t : Text) (sep : Char) : Option (Text × Text) :=
  match t.span (· != sep) with
  | (_, []) => none
  | (head, _ :: tail) => some (head, tail)

/-- A line less a carriage return at its end. -/
def dropReturn (line : Text) : Text :=
  match line.reverse with
  | '\r' :: rest => rest.reverse
  | _ => line

/-- The lines of a text; a line feed at the very end opens no further line. -/
def lines (t : Text) : List Text :=
  let pieces := t.pieces '\n'
  let closed := pieces.dropLast.map dropReturn
  match pieces.getLast? with
  | none | some [] => closed
  | some last => closed ++ [last]

/-- Pieces put together with a separator between them. -/
def join (sep : Text) (pieces : List Text) : Text := List.intercalate sep pieces

end ServiceGate.Text
