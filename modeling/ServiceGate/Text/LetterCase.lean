/-
# Upper and lower case

The full case mappings: a character may become several, and the lower-case form of a capital sigma
depends on whether it ends a word.
-/
import ServiceGate.Text.Basic
import ServiceGate.Text.LetterCase.Table
import ServiceGate.CharClass.Basic
import ServiceGate.CharClass.Cased

namespace ServiceGate

namespace LetterCase

/-- The code point that a table of runs gives for `n`. -/
def ofRuns (runs : List (Nat × Nat × Nat × Nat)) (n : Nat) : Option Nat :=
  runs.findSome? fun (first, last, step, target) =>
    if first ≤ n && n ≤ last && (n - first) % step == 0 then some (target + (n - first)) else none

/-- The case form of one character, by a table of runs and one of longer spellings. -/
def mapChar (runs : List (Nat × Nat × Nat × Nat)) (spellings : List (Nat × List Nat)) (c : Char) :
    Text :=
  match spellings.lookup c.toNat with
  | some codes => codes.map Char.ofNat
  | none => [((ofRuns runs c.toNat).map Char.ofNat).getD c]

/-- The lower-case form of a letter standing alone. -/
def lowerChar (c : Char) : Text :=
  if c.toNat < 128 then [if 'A' ≤ c && c ≤ 'Z' then Char.ofNat (c.toNat + 32) else c]
  else mapChar lowerRuns lowerSpellings c

def upperChar (c : Char) : Text :=
  if c.toNat < 128 then [if 'a' ≤ c && c ≤ 'z' then Char.ofNat (c.toNat - 32) else c]
  else mapChar upperRuns upperSpellings c

/-- Whether the first character that case does not ignore is a cased one. -/
def startsCased (t : Text) : Bool :=
  match t.dropWhile fun c => CharClass.inRanges CharClass.caseIgnorable c.toNat with
  | [] => false
  | c :: _ => CharClass.inRanges CharClass.cased c.toNat

/-- The lower-case form of a text, given the characters in front of it, nearest first. -/
def lowerFrom (behind : Text) : Text → Text
  | [] => []
  | c :: rest =>
    (if c == 'Σ' then
      [if startsCased behind && !startsCased rest then 'ς' else 'σ']
    else lowerChar c) ++ lowerFrom (c :: behind) rest

end LetterCase

namespace Text

/-- The lower-case form; a capital sigma that ends a word becomes a final sigma. -/
def lower (t : Text) : Text := LetterCase.lowerFrom [] t

def upper (t : Text) : Text := t.flatMap LetterCase.upperChar

/-- The text with its first character in upper case. -/
def capitalize : Text → Text
  | [] => []
  | c :: rest => LetterCase.upperChar c ++ rest

/-- Lower case for the ASCII letters only. -/
def lowerAscii (t : Text) : Text := t.map Char.toLower

end Text

end ServiceGate
