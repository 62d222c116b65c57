/-
# Patterns

A pattern describes stretches of text: characters of a class, sequences, ordered alternatives,
repetitions that prefer to go on or prefer to stop, and groups whose text is kept.  `textStart`,
`lineStart` and `wordEdge` describe places and take no character.

The rest of the module holds the words in which the rules of the gate spell their patterns.
-/
import ServiceGate.Text.Basic
import ServiceGate.CharClass.Basic

namespace ServiceGate

/-- A description of stretches of text. -/
inductive Pattern where
  /-- The empty stretch. -/
  | empty
  /-- One character of a class. -/
  | char (p : Char → Bool)
  /-- The place where the text starts. -/
  | textStart
  /-- A place where a line starts. -/
  | lineStart
  /-- A place between a character of a word and one that is none. -/
  | wordEdge
  /-- One stretch and then another. -/
  | seq (first second : Pattern)
  /-- The first alternative or, where that leads nowhere, the second. -/
  | alt (first second : Pattern)
  /-- Any number of stretches; as many as possible first when `greedy`, else as few. -/
  | many (greedy : Bool) (body : Pattern)
  /-- A stretch whose place is kept under a number. -/
  | capture (number : Nat) (body : Pattern)

namespace Pattern

/-! ## Spelling patterns -/

def literal : Text → Pattern
  | [] => empty
  | [c] => char (· == c)
  | c :: rest => seq (char (· == c)) (literal rest)

def word (s : String) : Pattern := literal s.toList

def oneOf (s : String) : Pattern := char fun c => s.toList.contains c

/-- A character that is none of those of `s`. -/
def noneOf (s : String) : Pattern := char fun c => !s.toList.contains c

def inOrder : List Pattern → Pattern
  | [] => empty
  | [p] => p
  | p :: rest => seq p (inOrder rest)

/-- The first pattern that leads to a match. -/
def anyOf : List Pattern → Pattern
  | [] => char fun _ => false
  | [p] => p
  | p :: rest => alt p (anyOf rest)

def anyWord (words : List String) : Pattern := anyOf (words.map word)

def optional (p : Pattern) : Pattern := alt p empty

/-- As many stretches as possible, none included. -/
def star (p : Pattern) : Pattern := many true p

/-- As many stretches as possible, at least one. -/
def plus (p : Pattern) : Pattern := seq p (many true p)

/-- As few stretches as possible, none included. -/
def starLazy (p : Pattern) : Pattern := many false p

/-- As few stretches as possible, at least one. -/
def plusLazy (p : Pattern) : Pattern := seq p (many false p)

def space : Pattern := char CharClass.isSpace

def spaces : Pattern := star space

/-- White space, at least one character. -/
def gap : Pattern := plus space

def indent : Pattern := star (oneOf " \t")

/-- A character of a word or a dollar sign. -/
def nameChar : Pattern := char fun c => CharClass.isWord c || c == '$'

/-- A character that a name may start with: an ASCII letter, `_` or `$`. -/
def nameStart : Pattern := char fun c => CharClass.isAsciiLetter c || c == '_' || c == '$'

def name : Pattern := seq nameStart (star nameChar)

def quote : Pattern := oneOf "'\""

def anyQuote : Pattern := oneOf "'\"\x60"

end Pattern

end ServiceGate
