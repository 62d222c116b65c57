/-
# Statistics of the gate

Counters over the runs of the gate in a project.  They are machine words: the number of runs has 32
bits and the others have 64.  A document from which they cannot be read counts as no document.
-/
import ServiceGate.Json.Read
import ServiceGate.Json.Render

namespace ServiceGate

/-- What the runs of the gate have added up to. -/
structure Statistics where
  runs : UInt32
  filesChecked : UInt64
  errorsFound : UInt64
  errorsAutofixed : UInt64
  fixesReverted : UInt64
deriving DecidableEq, Repr

namespace Statistics

/-- The counters of a project in which the gate has not run. -/
def zero : Statistics := ⟨0, 0, 0, 0, 0⟩

/-- Counts a run over some files that found some errors. -/
def recordCheck (s : Statistics) (files errors : Nat) : Statistics :=
  { s with
    runs := s.runs + 1
    filesChecked := s.filesChecked + UInt64.ofNat files
    errorsFound := s.errorsFound + UInt64.ofNat errors }

/-- Counts the repairs of a run, and whether one was given up. -/
def recordFix (s : Statistics) (fixed : Nat) (reverted : Bool) : Statistics :=
  { s with
    errorsAutofixed := s.errorsAutofixed + UInt64.ofNat fixed
    fixesReverted := if reverted then s.fixesReverted + 1 else s.fixesReverted }

/-- The names of the counters in a document, in order. -/
def fieldNames : List String :=
  ["runs", "files_checked", "errors_found", "errors_autofixed", "fixes_reverted"]

def toJson (s : Statistics) : JsonValue :=
  .fields (fieldNames.zip
    [.number s.runs.toNat, .number s.filesChecked.toNat, .number s.errorsFound.toNat,
      .number s.errorsAutofixed.toNat, .number s.fixesReverted.toNat])

def counter? (v : JsonValue) : Option UInt64 := (v.numberBelow? UInt64.size).map UInt64.ofNat

def ofJson? (v : JsonValue) : Option Statistics := do
  match ← v.record? fieldNames with
  | [runs, files, errors, autofixed, reverted] =>
    return ⟨UInt32.ofNat (← runs.numberBelow? UInt32.size), ← counter? files, ← counter? errors,
      ← counter? autofixed, ← counter? reverted⟩
  | _ => none

def render (s : Statistics) : Text := s.toJson.render

def read (t : Text) : Statistics := (JsonValue.read? t >>= ofJson?).getD zero

end Statistics

end ServiceGate
