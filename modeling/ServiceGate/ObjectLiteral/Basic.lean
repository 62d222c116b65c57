/-
# Object literals

A literal `{ … }` is cut at the commas that stand in code outside of any inner group, and each piece
is read as an entry: `key: value` with a plain or a quoted key, a method `name(…) { … }`, or a name
standing for itself.  Pieces of any other form (spreads, computed keys, nothing at all) are no
entries.
-/
import ServiceGate.ObjectLiteral.Quoted
import ServiceGate.Scan.Balance
import ServiceGate.Text.Search

namespace ServiceGate

/-- One entry of an object literal. -/
structure ObjectEntry where
  key : Text
  /-- Where the key starts. -/
  keyAt : Nat
  valueStart : Nat
  valueStop : Nat
deriving DecidableEq, Repr

/-- An object literal with the offsets of its braces. -/
structure ObjectLiteral where
  openAt : Nat
  closeAt : Nat
  entries : List ObjectEntry
deriving DecidableEq, Repr

namespace ObjectEntry

def value (e : ObjectEntry) (t : Text) : Text := t.between e.valueStart e.valueStop

/-- Where the first character that is neither comment nor white space stands, before `stop`. -/
def firstSignificant? (t : Text) (start stop : Nat) : Option Nat :=
  (((Scan.marks t start).takeWhile fun m => m.offset < stop).find? fun m =>
    m.kind != .comment && !CharClass.isSpace m.char).map (·.offset)

/-- The key that a piece opens with, and how many bytes it takes up. -/
def readKey? (piece : Text) : Option (Text × Nat) :=
  match piece with
  | [] => none
  | c :: _ =>
    if c == '\'' || c == '"' then Quoted.decode? c piece
    else if CharClass.isName c then
      let key := piece.takeWhile CharClass.isName
      some (key, Text.size key)
    else none

/-- The span of the value, given what stands between offset `behindKey` and the end of the piece. -/
def valueSpan? (keyAt behindKey stop : Nat) (rest : Text) : Option (Nat × Nat) :=
  match rest.trimStart with
  | [] => some (keyAt, behindKey)
  | ':' :: afterColon =>
    let value := Text.trimStart afterColon
    let start := stop - value.size
    some (start, start + value.trimEnd.size)
  | '(' :: _ => some (behindKey, behindKey + rest.trimEnd.size)
  | _ => none

/-- Reads the piece between two offsets as an entry. -/
def read? (t : Text) (start stop : Nat) : Option ObjectEntry := do
  let keyAt ← firstSignificant? t start stop
  let (key, length) ← readKey? (t.between keyAt stop)
  let behindKey := keyAt + length
  let (valueStart, valueStop) ← valueSpan? keyAt behindKey stop (t.between behindKey stop)
  return ⟨key, keyAt, valueStart, valueStop⟩

end ObjectEntry

namespace ObjectLiteral

/-- Cuts the stretch from `start` to the brace at `close` at the commas of depth zero. -/
def pieces (close : Nat) (depth : Int) (start : Nat) : List Scan.Mark → List (Nat × Nat)
  | [] => [(start, close)]
  | m :: rest =>
    if close ≤ m.offset then [(start, close)]
    else if m.kind != .code then pieces close depth start rest
    else if Scan.isOpener m.char then pieces close (depth + 1) start rest
    else if Scan.isCloser m.char then pieces close (depth - 1) start rest
    else if m.char == ',' && depth == 0 then
      (start, m.offset) :: pieces close depth (m.offset + 1) rest
    else pieces close depth start rest

/-- The literal whose opening brace stands at offset `n`; `none` where none does or it is never
closed. -/
def readAt? (t : Text) (n : Nat) : Option ObjectLiteral :=
  match t.after n with
  | '\x7b' :: _ =>
    (Scan.matchingClose? t n).map fun close =>
      ⟨n, close, (pieces close 0 (n + 1) (Scan.marks t (n + 1))).filterMap fun (start, stop) =>
        ObjectEntry.read? t start stop⟩
  | _ => none

def get? (o : ObjectLiteral) (key : Text) : Option ObjectEntry := o.entries.find? (·.key == key)

def hasKey (o : ObjectLiteral) (key : Text) : Bool := (o.get? key).isSome

def keys (o : ObjectLiteral) : List Text := o.entries.map (·.key)

end ObjectLiteral

/-- The object literal that the value of an entry is. -/
def ObjectEntry.object? (e : ObjectEntry) (t : Text) : Option ObjectLiteral :=
  ObjectLiteral.readAt? t e.valueStart

end ServiceGate
