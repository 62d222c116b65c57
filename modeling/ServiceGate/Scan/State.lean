/-
# One step of the scanner

The scanner reads source text character by character and tells code from string literals and
comments.  A back-quoted string may open `${ … }` regions, in which code counts again; for each open
region the state keeps how many braces are open inside it, so that the brace that ends the region is
told from one that closes a group.

A step looks one character ahead and may take that character along: the two signs of `//`, `/*`,
`*/` and of the opening of a region, and an escaped character with its backslash.
-/
import ServiceGate.Text.Basic

namespace ServiceGate.Scan

/-- What a character belongs to. -/
inductive Kind where
  | code
  | literal
  | comment
deriving DecidableEq, Repr

/-- What the scanner is inside of. -/
inductive Mode where
  | code
  | lineComment
  | blockComment
  | string (quote : Char)
deriving DecidableEq, Repr

/-- Where the scanner stands between two characters. -/
structure State where
  /-- What it is inside of. -/
  mode : Mode
  /-- The number of open braces of every open region, the innermost region first. -/
  regions : List Nat
  /-- The quote of the string it entered last, if any. -/
  lastQuote : Option Char
deriving DecidableEq, Repr

/-- A step's result: the kind of the character read, the state behind it, and whether the next
character belongs to it. -/
structure Step where
  kind : Kind
  state : State
  takesNext : Bool

namespace State

def start : State := ⟨.code, [], none⟩

/-- Whether the scanner is inside a string. -/
def inString (s : State) : Bool :=
  match s.mode with
  | .string _ => true
  | _ => false

/-- Whether a string or a region is still open. -/
def inLiteral (s : State) : Bool := s.inString || !s.regions.isEmpty

/-- The state inside a string opened by `quote`. -/
def enterString (s : State) (quote : Char) : State :=
  { s with mode := .string quote, lastQuote := some quote }

/-- A line comment runs through its line feed. -/
def stepLineComment (s : State) (c : Char) : Step :=
  ⟨.comment, if c == '\n' then { s with mode := .code } else s, false⟩

/-- A block comment runs through the first closing pair. -/
def stepBlockComment (s : State) (c : Char) (next : Option Char) : Step :=
  if c == '*' && next == some '/' then ⟨.comment, { s with mode := .code }, true⟩
  else ⟨.comment, s, false⟩

/-- In a string a backslash escapes the next character; the quote ends it, and in a back-quoted one
a dollar sign with a brace opens a region. -/
def stepString (s : State) (quote c : Char) (next : Option Char) : Step :=
  if c == '\\' then ⟨.literal, s, next.isSome⟩
  else if c == quote then ⟨.literal, { s with mode := .code }, false⟩
  else if quote == '\x60' && c == '$' && next == some '\x7b' then
    ⟨.literal, { s with mode := .code, regions := 0 :: s.regions }, true⟩
  else ⟨.literal, s, false⟩

/-- A brace that opens in code is counted in the innermost region. -/
def stepOpenBrace (s : State) : Step :=
  match s.regions with
  | [] => ⟨.code, s, false⟩
  | depth :: outer => ⟨.code, { s with regions := (depth + 1) :: outer }, false⟩

/-- A brace that closes in code ends the innermost region if none is open inside it. -/
def stepCloseBrace (s : State) : Step :=
  match s.regions with
  | [] => ⟨.code, s, false⟩
  | 0 :: outer => ⟨.literal, { s with regions := outer }.enterString '\x60', false⟩
  | (depth + 1) :: outer => ⟨.code, { s with regions := depth :: outer }, false⟩

/-- In code, two slashes or a slash and a star open a comment and a quote opens a string. -/
def stepCode (s : State) (c : Char) (next : Option Char) : Step :=
  if c == '/' && next == some '/' then ⟨.comment, { s with mode := .lineComment }, true⟩
  else if c == '/' && next == some '*' then ⟨.comment, { s with mode := .blockComment }, true⟩
  else if c == '\'' || c == '"' || c == '\x60' then ⟨.literal, s.enterString c, false⟩
  else if c == '\x7b' then s.stepOpenBrace
  else if c == '\x7d' then s.stepCloseBrace
  else ⟨.code, s, false⟩

/-- Reads `c`, with `next` standing behind it. -/
def step (s : State) (c : Char) (next : Option Char) : Step :=
  match s.mode with
  | .lineComment => s.stepLineComment c
  | .blockComment => s.stepBlockComment c next
  | .string quote => s.stepString quote c next
  | .code => s.stepCode c next

def after (s : State) : Text → State
  | [] => s
  | [c] => (s.step c none).state
  | c :: d :: rest =>
    let r := s.step c (some d)
    if r.takesNext then r.state.after rest else r.state.after (d :: rest)

end State

end ServiceGate.Scan
