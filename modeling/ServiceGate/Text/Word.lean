/-
# Counting whole words

A word occurs whole where no character of a name stands directly in front of it or behind it.
Occurrences are looked for from left to right and do not overlap.
-/
import ServiceGate.Text.Basic
import ServiceGate.CharClass.Basic

namespace ServiceGate.Text

/-- Whether a neighbour, if there is one, keeps a word apart from it. -/
def endsWord : Option Char → Bool
  | none => true
  | some c => !CharClass.isName c

/-- Whole occurrences of `word`, given the character in front of the text and the number of
characters that the last occurrence still covers. -/
def countWordFrom (word : Text) (behind : Option Char) (covered : Nat) : Text → Nat
  | [] => 0
  | c :: rest =>
    match covered with
    | n + 1 => countWordFrom word (some c) n rest
    | 0 =>
      if word.isPrefixOf (c :: rest) then
        let ahead := ((c :: rest).drop word.length).head?
        (if endsWord behind && endsWord ahead then 1 else 0) +
          countWordFrom word (some c) (word.length - 1) rest
      else countWordFrom word (some c) 0 rest

/-- How often `word` occurs whole; the empty word never does. -/
def countWord (t word : Text) : Nat :=
  if word.isEmpty then 0 else countWordFrom word none 0 t

end ServiceGate.Text
