/-
# Suppressions

A suppression keeps one rule, or with `*` every rule, from being reported in one file, or with `*`
in every file.  A file is named by its path or by an end of it, and a longer path than the reported
one names the file as well.

The suppressions that the command line adds and clears are kept in one document, with a version
number in front (`renderStore`, `readStore`).  A document that is not of this form holds none.
-/
import ServiceGate.Json.Read
import ServiceGate.Json.Render
import ServiceGate.Text.Search

namespace ServiceGate

/-- A rule that is not reported in a file. -/
structure Suppression where
  /-- The code of the rule, or `*`. -/
  rule : Text
  /-- The file, or `*`. -/
  file : Text
  /-- The day on which it was added. -/
  added : Text
deriving DecidableEq, Repr

namespace Suppression

/-- The word that stands for every rule or every file. -/
def wildcard : Text := ['*']

/-- Whether two paths can name one file: either is an end of the other. -/
def mayName (entry path : Text) : Bool := path.endsWith entry || entry.endsWith path

/-- Whether a suppression covers a rule in a file. -/
def covers (s : Suppression) (rule file : Text) : Bool :=
  (s.rule == wildcard || s.rule == rule) && (s.file == wildcard || mayName s.file file)

/-- Whether some suppression covers a rule in a file. -/
def anyCovers (entries : List Suppression) (rule file : Text) : Bool :=
  entries.any (·.covers rule file)

/-- The suppression that a line of a hand-written list stands for: the rule, and the file if the
line names one.  Blank lines and lines that start with `#` stand for none. -/
def ofLine? (today line : Text) : Option Suppression :=
  match (Text.trim line).words with
  | [] => none
  | rule :: rest =>
    if rule.startsWith ['#'] then none else some ⟨rule, rest.headD wildcard, today⟩

/-- The suppressions of a hand-written list. -/
def ofList (today t : Text) : List Suppression := t.lines.filterMap (ofLine? today)

/-! ## The stored suppressions -/

def toJson (s : Suppression) : JsonValue :=
  .fields [("rule", .text s.rule), ("file", .text s.file), ("added", .text s.added)]

def ofJson? (v : JsonValue) : Option Suppression := do
  match ← v.record? ["rule", "file", "added"] with
  | [rule, file, added] => return ⟨← rule.text?, ← file.text?, ← added.text?⟩
  | _ => none

/-- The document that keeps some suppressions. -/
def renderStore (entries : List Suppression) : Text :=
  (JsonValue.fields [("version", .number 1), ("entries", .list (entries.map toJson))]).render

/-- The suppressions that a value keeps; the version may be any number of 32 bits. -/
def entriesOf? (v : JsonValue) : Option (List Suppression) := do
  match ← v.record? ["version", "entries"] with
  | [version, entries] =>
    let _ ← version.numberBelow? UInt32.size
    (← entries.list?).mapM ofJson?
  | _ => none

/-- The suppressions that a document keeps. -/
def readStore (t : Text) : List Suppression := (JsonValue.read? t >>= entriesOf?).getD []

/-- Whether a list holds a rule for a file. -/
def holds (entries : List Suppression) (rule file : Text) : Bool :=
  entries.any fun s => s.rule == rule && s.file == file

/-- A list less the suppressions for a file. -/
def clear (entries : List Suppression) (file : Text) : List Suppression :=
  entries.filter (·.file != file)

end Suppression

end ServiceGate
