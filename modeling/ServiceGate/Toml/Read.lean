/-
# Reading TOML

`Toml.read?` answers with the entries of a document.  A document is a sequence of lines: blank ones,
comments, headers and keys with their values.  Lists and tables between braces nest less than
`nestingLimit` deep, and a dotted key has fewer parts than that.
-/
import ServiceGate.Toml.Number
import ServiceGate.Toml.Quoted
import ServiceGate.Toml.Value

namespace ServiceGate.Toml

open CharClass

def nestingLimit : Nat := 80

/-- A text less blanks and tabs at its start. -/
def skipGap (t : Text) : Text := t.dropWhile isGap

/-- What follows a line whose contents have been read: a comment may still stand there. -/
def behindLine? (t : Text) : Option Text :=
  let body := match skipGap t with
    | '#' :: rest => rest.dropWhile isPlain
    | rest => rest
  if body.isEmpty then some [] else behindLineEnd? body

/-- A text less white space, line endings and comments at its start. -/
def skipFiller? (inComment : Bool) : Text → Option Text
  | [] => if inComment then none else some []
  | '\n' :: rest => skipFiller? false rest
  | '\r' :: '\n' :: rest => skipFiller? false rest
  | c :: rest =>
    if inComment then
      if isPlain c then skipFiller? true rest else none
    else if c == '#' then skipFiller? true rest
    else if isGap c then skipFiller? false rest
    else some (c :: rest)

/-! ## Keys -/

/-- A character of a key without quotes. -/
def isBareKey (c : Char) : Bool := isAsciiLetter c || isAsciiDigit c || c == '_' || c == '-'

/-- The part of a key that a text starts with, and the rest. -/
def readSimpleKey? : Text → Option (Text × Text)
  | '"' :: rest => readBasic? (rest.length + 1) rest
  | '\'' :: rest => readLiteral? rest
  | t =>
    match t.span isBareKey with
    | ([], _) => none
    | (key, rest) => some (key, rest)

/-- The parts of a dotted key, at most `n`, with blanks around them, and the rest. -/
def readKeyParts? : Nat → Text → Option (List Text × Text)
  | 0, _ => none
  | n + 1, t => do
    let (key, rest) ← readSimpleKey? (skipGap t)
    match skipGap rest with
    | '.' :: more =>
      let (keys, rest) ← readKeyParts? n more
      return (key :: keys, rest)
    | rest => return ([key], rest)

/-- A dotted key in two parts, the way and the last key, and the rest. -/
def readKey? (t : Text) : Option (List Text × Text × Text) := do
  let (keys, rest) ← readKeyParts? (nestingLimit - 1) t
  return (keys.dropLast, ← keys.getLast?, rest)

/-! ## Values -/

mutual

/-- The value that a text starts with, and the rest.  Lists and tables nest at most `depth` deep in
it; `n` bounds the number of values. -/
def readValue? (n depth : Nat) (t : Text) : Option (TomlValue × Text) :=
  match n with
  | 0 => none
  | n + 1 =>
    match t with
    | '"' :: _ => (readString? t).map fun (s, rest) => (.text s, rest)
    | '\'' :: _ => (readString? t).map fun (s, rest) => (.text s, rest)
    | '[' :: rest =>
      match depth with
      | 0 => none
      | depth + 1 => (readItems? n depth rest).map fun (vs, rest) => (.list vs, rest)
    | '\x7b' :: rest =>
      match depth with
      | 0 => none
      | depth + 1 =>
        match skipGap rest with
        | '\x7d' :: rest => some (.table .inlined [], rest)
        | rest => (readInline? n depth [] rest).map fun (es, rest) => (.table .inlined es, rest)
    | 't' :: 'r' :: 'u' :: 'e' :: rest => some (.scalar, rest)
    | 'f' :: 'a' :: 'l' :: 's' :: 'e' :: rest => some (.scalar, rest)
    | _ => (behindScalar? t).map (.scalar, ·)

/-- The items of a list up to its closing bracket, and the rest. -/
def readItems? (n depth : Nat) (t : Text) : Option (List TomlValue × Text) :=
  match n with
  | 0 => none
  | n + 1 => do
    match ← skipFiller? false t with
    | ']' :: rest => return ([], rest)
    | start =>
      let (v, rest) ← readValue? n depth start
      match ← skipFiller? false rest with
      | ',' :: rest =>
        let (vs, rest) ← readItems? n depth rest
        return (v :: vs, rest)
      | ']' :: rest => return ([v], rest)
      | _ => none

/-- The entries of a table between braces up to its closing brace, together with those read before,
and the rest. -/
def readInline? (n depth : Nat) (es : TomlEntries) (t : Text) : Option (TomlEntries × Text) :=
  match n with
  | 0 => none
  | n + 1 => do
    let (path, key, rest) ← readKey? t
    match rest with
    | '=' :: rest =>
      let (v, rest) ← readValue? n depth (skipGap rest)
      let es ← es.addDotted path key v
      match skipGap rest with
      | ',' :: rest => readInline? n depth es rest
      | '\x7d' :: rest => return (es, rest)
      | _ => none
    | _ => none

end

/-! ## Lines -/

/-- A document that has been read in part: what it says, and the table under which keys now come. -/
structure Draft where
  entries : TomlEntries
  header : List Text

/-- Reads a header whose opening brackets have been read. -/
def readHeader? (next : Bool) (d : Draft) (t : Text) : Option (Draft × Text) := do
  let (path, key, rest) ← readKey? t
  let closing := if next then "]]".toList else "]".toList
  let rest ← Text.stripStart? closing rest
  let entries ← if next then d.entries.openNext path key else d.entries.openTable path key
  return (⟨entries, path ++ [key]⟩, ← behindLine? rest)

def readEntry? (d : Draft) (t : Text) : Option (Draft × Text) := do
  let (path, key, rest) ← readKey? t
  match rest with
  | '=' :: rest =>
    let (v, rest) ← readValue? (rest.length + 1) (nestingLimit - 1) (skipGap rest)
    return ({ d with entries := ← d.entries.addUnder d.header path key v }, ← behindLine? rest)
  | _ => none

/-- Reads the line that a text starts with. -/
def readLine? (d : Draft) (t : Text) : Option (Draft × Text) :=
  match skipGap t with
  | '[' :: '[' :: rest => readHeader? true d rest
  | '[' :: rest => readHeader? false d rest
  | '#' :: rest => (behindLine? ('#' :: rest)).map (d, ·)
  | '\n' :: rest => some (d, rest)
  | '\r' :: '\n' :: rest => some (d, rest)
  | rest => readEntry? d rest

/-- Reads the lines of a text, at most `n`. -/
def readLines : Nat → Draft → Text → Option Draft
  | 0, _, _ => none
  | n + 1, d, t =>
    if (skipGap t).isEmpty then some d
    else (readLine? d t).bind fun (d, rest) => readLines n d rest

/-- The entries of a document, which a byte order mark may precede. -/
def read? (t : Text) : Option TomlEntries :=
  let body := match t with
    | '\uFEFF' :: rest => rest
    | t => t
  (readLines (body.length + 1) ⟨[], []⟩ body).map (·.entries)

end ServiceGate.Toml
