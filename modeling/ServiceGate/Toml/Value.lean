/-
# TOML values

What a configuration document says.  Only texts, lists and tables are looked into; every other value
is a `scalar`.  A table remembers how it came about, since that decides whether a later line of the
document may still add to it.
-/
import ServiceGate.Text.Basic

namespace ServiceGate

/-- How a table came about. -/
inductive TableOrigin where
  /-- Written between braces; nothing can be added to it. -/
  | inlined
  /-- Opened by a header of its own. -/
  | opened
  /-- Passed through by a longer header. -/
  | implied
  /-- Passed through by a dotted key. -/
  | dotted
deriving DecidableEq, Repr

/-- A value of a document. -/
inductive TomlValue where
  | text (value : Text)
  /-- A truth value, a number, a date or a time. -/
  | scalar
  | list (items : List TomlValue)
  | table (origin : TableOrigin) (entries : List (Text × TomlValue))
  /-- The tables opened by headers in double brackets. -/
  | tables (items : List (List (Text × TomlValue)))
deriving Inhabited

/-- The keys of a table with their values. -/
abbrev TomlEntries := List (Text × TomlValue)

namespace TomlEntries

/-- The entries with the value of a key replaced, or put at the end. -/
def put (key : Text) (v : TomlValue) : TomlEntries → TomlEntries
  | [] => [(key, v)]
  | (k, w) :: rest => if k = key then (k, v) :: rest else (k, w) :: put key v rest

/-- Changes the table that a path leads to, making the missing tables on the way.  `change` is told
how that table came about.  There is no way through a value that is closed, nor, for a dotted key,
through a table with a header of its own. -/
def changeAt (way : TableOrigin) (change : TableOrigin → TomlEntries → Option TomlEntries)
    (origin : TableOrigin) : List Text → TomlEntries → Option TomlEntries
  | [], es => change origin es
  | key :: path, es =>
    match es.lookup key with
    | none => (changeAt way change way path []).map fun new => put key (.table way new) es
    | some (.table found inner) =>
      if found = .inlined ∨ (way = .dotted ∧ found = .opened) then none
      else (changeAt way change found path inner).map fun new => put key (.table found new) es
    | some (.tables items) =>
      match items.getLast? with
      | none => none
      | some last =>
        (changeAt way change .opened path last).map fun new =>
          put key (.tables (items.dropLast ++ [new])) es
    | some _ => none

def addNew (key : Text) (v : TomlValue) (es : TomlEntries) : Option TomlEntries :=
  if (es.lookup key).isSome then none else some (put key v es)

/-- Adds the value of a dotted key; the last table on its way must itself be made by dotted keys. -/
def addDotted (path : List Text) (key : Text) (v : TomlValue) (es : TomlEntries) :
    Option TomlEntries :=
  changeAt .dotted
    (fun origin inner => if path ≠ [] ∧ origin ≠ .dotted then none else addNew key v inner)
    .opened path es

/-- Opens the table of a header.  A table that longer headers have passed through may still be
opened, once. -/
def openTable (path : List Text) (key : Text) (es : TomlEntries) : Option TomlEntries :=
  changeAt .implied
    (fun _ inner =>
      match inner.lookup key with
      | none => some (put key (.table .opened []) inner)
      | some (.table .implied found) => some (put key (.table .opened found) inner)
      | some _ => none)
    .opened path es

/-- Opens one more table of a header in double brackets. -/
def openNext (path : List Text) (key : Text) (es : TomlEntries) : Option TomlEntries :=
  changeAt .implied
    (fun _ inner =>
      match inner.lookup key with
      | none => some (put key (.tables [[]]) inner)
      | some (.tables items) => some (put key (.tables (items ++ [[]])) inner)
      | some _ => none)
    .opened path es

/-- Adds the value of a dotted key to the table that a header has opened. -/
def addUnder (header path : List Text) (key : Text) (v : TomlValue) (es : TomlEntries) :
    Option TomlEntries :=
  changeAt .implied (fun _ inner => addDotted path key v inner) .opened header es

end TomlEntries

end ServiceGate
