/-
# TOML strings

A string is basic, between double quotes and with escapes, or literal, between single quotes and
without; either may run over several lines between triple quotes.  `encode` chooses the form that
shows a text most plainly: a basic string that needs no escape, then a literal one, then the same
over several lines, and a basic string with escapes where nothing else will do.
-/
import ServiceGate.Json.Quoted
import ServiceGate.Text.Search

namespace ServiceGate.Toml

/-! ## Writing -/

/-- The length of the longest run of a character. -/
def longestRun (c : Char) (t : Text) : Nat :=
  (t.foldl (fun (best, now) d => if d == c then (max best (now + 1), now + 1) else (best, 0))
    (0, 0)).1

/-- A control character other than a tab or a line feed. -/
def isControl (c : Char) : Bool :=
  (c.toNat < 0x20 || c.toNat == 0x7F) && c != '\t' && c != '\n'

def escapeControl (c : Char) : Text :=
  if c == '\x08' then "\\b".toList
  else if c == '\t' then "\\t".toList
  else if c == '\n' then "\\n".toList
  else if c == '\x0c' then "\\f".toList
  else if c == '\r' then "\\r".toList
  else "\\u00".toList ++ [(Json.hexDigit (c.toNat / 16)).toUpper,
    (Json.hexDigit (c.toNat % 16)).toUpper]

/-- The contents of a basic string.  At most `quotes` double quotes stand unescaped in a row, of
which `left` may still come; over several lines line feeds stand as they are. -/
def basicContents (manyLines : Bool) (quotes : Nat) : Nat → Text → Text
  | _, [] => []
  | left, c :: rest =>
    if c == '"' then
      match left with
      | 0 => '\\' :: '"' :: basicContents manyLines quotes quotes rest
      | left + 1 => '"' :: basicContents manyLines quotes left rest
    else
      let written :=
        if c == '\\' then ['\\', '\\']
        else if c == '\n' && manyLines then ['\n']
        else if isControl c || c == '\t' || c == '\n' then escapeControl c
        else [c]
      written ++ basicContents manyLines quotes quotes rest

def basic (t : Text) : Text := '"' :: basicContents false 0 0 t ++ ['"']

/-- The line feed behind triple quotes, for a text that has several lines. -/
def opening (t : Text) : Text := if t.contains ['\n'] then ['\n'] else []

def basicLines (t : Text) : Text :=
  "\"\"\"".toList ++ opening t ++ basicContents true 2 2 t ++ "\"\"\"".toList

def literal (t : Text) : Text := '\'' :: t ++ ['\'']

/-- A literal string over several lines. -/
def literalLines (t : Text) : Text := "'''".toList ++ opening t ++ t ++ "'''".toList

/-- A text as a string, in its plainest form. -/
def encode (t : Text) : Text :=
  let controls := t.any isControl
  let escapes := t.any (· == '\\')
  let lines := t.any (· == '\n')
  let doubles := longestRun '"' t
  let singles := longestRun '\'' t
  if !controls && !escapes && doubles == 0 && !lines then basic t
  else if !controls && singles == 0 && !lines then literal t
  else if !controls && !escapes && doubles ≤ 2 then basicLines t
  else if !controls && singles ≤ 2 then literalLines t
  else if lines then basicLines t
  else basic t

/-! ## Reading -/

/-- Whether a character may stand in a comment or a string as it is. -/
def isPlain (c : Char) : Bool := c == '\t' || (0x20 ≤ c.toNat && c.toNat != 0x7F)

def isGap (c : Char) : Bool := c == ' ' || c == '\t'

/-- The character of a code point, unless it is half of a surrogate pair or too large. -/
def scalar? (n : Nat) : Option Char := if n.isValidChar then some (Char.ofNat n) else none

/-- The character that a letter behind a backslash stands for. -/
def escaped? : Char → Option Char
  | 'b' => some '\x08'
  | 't' => some '\t'
  | 'n' => some '\n'
  | 'f' => some '\x0c'
  | 'r' => some '\r'
  | '"' => some '"'
  | '\\' => some '\\'
  | _ => none

/-- The character of an escape whose backslash has been read, and the rest. -/
def escape? : Text → Option (Char × Text)
  | 'u' :: a :: b :: c :: d :: rest => do
    return (← scalar? (← Json.unit? a b c d), rest)
  | 'U' :: a :: b :: c :: d :: e :: f :: g :: h :: rest => do
    return (← scalar? ((← Json.unit? a b c d) * 0x10000 + (← Json.unit? e f g h)), rest)
  | c :: rest => (escaped? c).map (·, rest)
  | [] => none

/-- The contents of a basic string up to its closing quote, and the rest. -/
def readBasic? : Nat → Text → Option (Text × Text)
  | 0, _ => none
  | _, [] => none
  | _, '"' :: rest => some ([], rest)
  | n + 1, '\\' :: rest => do
    let (c, rest) ← escape? rest
    let (t, rest) ← readBasic? n rest
    return (c :: t, rest)
  | n + 1, c :: rest => do
    if !isPlain c then none
    let (t, rest) ← readBasic? n rest
    return (c :: t, rest)

/-- The contents of a literal string up to its closing quote, and the rest. -/
def readLiteral? : Text → Option (Text × Text)
  | [] => none
  | '\'' :: rest => some ([], rest)
  | c :: rest => do
    if !isPlain c then none
    let (t, rest) ← readLiteral? rest
    return (c :: t, rest)

/-- What follows the line ending that a text starts with. -/
def behindLineEnd? : Text → Option Text
  | '\n' :: rest => some rest
  | '\r' :: '\n' :: rest => some rest
  | _ => none

/-- A text less blanks and line endings at its start. -/
def skipLines : Text → Text
  | '\n' :: rest => skipLines rest
  | '\r' :: '\n' :: rest => skipLines rest
  | ' ' :: rest => skipLines rest
  | '\t' :: rest => skipLines rest
  | t => t

/-- What follows a backslash at the end of a line: the text behind all white space that comes. -/
def behindContinuation? (t : Text) : Option Text :=
  (behindLineEnd? (t.dropWhile isGap)).map skipLines

/-- The contents of a string over several lines up to its closing quotes, and the rest.  Up to two
more quotes in front of the closing ones belong to the contents.  A line ending is read as a line
feed. -/
def readLines? (quote : Char) : Nat → Text → Option (Text × Text)
  | 0, _ => none
  | _, [] => none
  | n + 1, c :: rest =>
    if c = quote then
      let run := (c :: rest).takeWhile (· == quote)
      if 3 ≤ run.length then
        some (List.replicate (min (run.length - 3) 2) quote, (c :: rest).drop (min run.length 5))
      else (readLines? quote n rest).map fun (t, rest) => (c :: t, rest)
    else if c = '\\' ∧ quote = '"' then
      match behindContinuation? rest with
      | some rest => readLines? quote n rest
      | none => do
        let (d, rest) ← escape? rest
        let (t, rest) ← readLines? quote n rest
        return (d :: t, rest)
    else
      match behindLineEnd? (c :: rest) with
      | some rest => (readLines? quote n rest).map fun (t, rest) => ('\n' :: t, rest)
      | none =>
        if isPlain c then (readLines? quote n rest).map fun (t, rest) => (c :: t, rest) else none

/-- The contents of a string over several lines, whose opening quotes have been read; a line ending
right behind them does not count. -/
def readManyLines? (quote : Char) (t : Text) : Option (Text × Text) :=
  let body := (behindLineEnd? t).getD t
  readLines? quote (body.length + 1) body

/-- The string that a text starts with, and the rest. -/
def readString? : Text → Option (Text × Text)
  | '"' :: '"' :: '"' :: rest => readManyLines? '"' rest
  | '\'' :: '\'' :: '\'' :: rest => readManyLines? '\'' rest
  | '"' :: rest => readBasic? (rest.length + 1) rest
  | '\'' :: rest => readLiteral? rest
  | _ => none

end ServiceGate.Toml
