/-
# Reading JSON

`JsonValue.read?` answers with the value of a document that holds one value and nothing else.  White
space between its parts is a blank, a tab, a line feed or a carriage return.  Each value that is
read takes at least one character, so the length of the document bounds how deep values nest.
-/
import ServiceGate.CharClass.Basic
import ServiceGate.Json.Quoted
import ServiceGate.Json.Value

namespace ServiceGate.JsonValue

def isBlank (c : Char) : Bool := c == ' ' || c == '\t' || c == '\n' || c == '\r'

/-- A document less white space at its start. -/
def skipBlank (t : Text) : Text := t.dropWhile isBlank

/-- The digits that a text starts with, and the rest. -/
def digits (t : Text) : Text × Text := t.span CharClass.isAsciiDigit

/-- The number that decimal digits stand for. -/
def valueOf (ds : Text) : Nat := ds.foldl (fun n d => 10 * n + (d.toNat - '0'.toNat)) 0

/-- The digits of a whole number, which has no zero in front, and the rest. -/
def wholePart? (t : Text) : Option (Text × Text) :=
  match digits t with
  | ([], _) => none
  | (['0'], rest) => some (['0'], rest)
  | ('0' :: _ :: _, _) => none
  | (ds, rest) => some (ds, rest)

/-- What follows the fraction that a text starts with, if it starts with one. -/
def behindFraction? : Text → Option Text
  | '.' :: rest =>
    match digits rest with
    | ([], _) => none
    | (_, rest) => some rest
  | t => some t

def behindSign : Text → Text
  | '+' :: rest => rest
  | '-' :: rest => rest
  | t => t

/-- What follows the exponent that a text starts with, if it starts with one. -/
def behindExponent? : Text → Option Text
  | c :: rest =>
    if c = 'e' ∨ c = 'E' then
      match digits (behindSign rest) with
      | ([], _) => none
      | (_, rest) => some rest
    else some (c :: rest)
  | [] => some []

/-- The number that a text starts with, and the rest. -/
def readNumber? (t : Text) : Option (JsonValue × Text) := do
  let (unsigned, body) := match t with
    | '-' :: rest => (false, rest)
    | t => (true, t)
  let (ds, whole) ← wholePart? body
  let rest ← behindFraction? whole >>= behindExponent?
  return (if unsigned && rest.length == whole.length then .number (valueOf ds) else .other, rest)

/-- The value that a word stands for, if the text starts with it. -/
def readWord? (word : String) (v : JsonValue) (t : Text) : Option (JsonValue × Text) :=
  if word.toList.isPrefixOf t then some (v, t.drop word.length) else none

/-- An object, unless one of its keys is no text. -/
def ofFields (kvs : List (Option Text × JsonValue)) : JsonValue :=
  match kvs.mapM fun (k, v) => k.map (·, v) with
  | some kvs => .object kvs
  | none => .other

mutual

/-- The value that a text starts with, and the rest; values nest at most `depth` deep. -/
def readValue? (depth : Nat) (t : Text) : Option (JsonValue × Text) :=
  match depth with
  | 0 => none
  | depth + 1 =>
    match skipBlank t with
    | '"' :: rest => do
      let (points, rest) ← Json.codePoints? rest
      return (((Json.characters? points).map JsonValue.text).getD .other, rest)
    | '[' :: rest =>
      match skipBlank rest with
      | ']' :: rest => some (.list [], rest)
      | rest => do
        let (items, rest) ← readItems? depth rest
        return (.list items, rest)
    | '\x7b' :: rest =>
      match skipBlank rest with
      | '\x7d' :: rest => some (.object [], rest)
      | rest => do
        let (kvs, rest) ← readFields? depth rest
        return (ofFields kvs, rest)
    | 'n' :: rest => readWord? "null" .null ('n' :: rest)
    | 't' :: rest => readWord? "true" (.bool true) ('t' :: rest)
    | 'f' :: rest => readWord? "false" (.bool false) ('f' :: rest)
    | rest => readNumber? rest

/-- The items of a list up to its closing bracket, and the rest. -/
def readItems? (depth : Nat) (t : Text) : Option (List JsonValue × Text) :=
  match depth with
  | 0 => none
  | depth + 1 => do
    let (v, rest) ← readValue? depth t
    match skipBlank rest with
    | ',' :: rest =>
      let (vs, rest) ← readItems? depth rest
      return (v :: vs, rest)
    | ']' :: rest => return ([v], rest)
    | _ => none

/-- The fields of an object up to its closing brace, and the rest. -/
def readFields? (depth : Nat) (t : Text) : Option (List (Option Text × JsonValue) × Text) :=
  match depth with
  | 0 => none
  | depth + 1 =>
    match skipBlank t with
    | '"' :: rest => do
      let (points, rest) ← Json.codePoints? rest
      match skipBlank rest with
      | ':' :: rest =>
        let (v, rest) ← readValue? depth rest
        let field := (Json.characters? points, v)
        match skipBlank rest with
        | ',' :: rest =>
          let (kvs, rest) ← readFields? depth rest
          return (field :: kvs, rest)
        | '\x7d' :: rest => return ([field], rest)
        | _ => none
      | _ => none
    | _ => none

end

def read? (t : Text) : Option JsonValue := do
  let (v, rest) ← readValue? (2 * t.length + 2) t
  if (skipBlank rest).isEmpty then some v else none

end ServiceGate.JsonValue
