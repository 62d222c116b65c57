/-
# Storage modes

The persistence of a generated service.  A mode has one canonical name; a command line also takes
other spellings, in any letter case and with white space around them.
-/
import ServiceGate.Text.LetterCase
import ServiceGate.Text.Search

namespace ServiceGate

/-- Where a service keeps its data. -/
inductive StorageMode where
  | none
  | embeddedFile
  | networkedRelational
deriving DecidableEq, Repr

namespace StorageMode

instance : Inhabited StorageMode := ⟨.none⟩

def name : StorageMode → String
  | .none => "none"
  | .embeddedFile => "embedded-file-backed"
  | .networkedRelational => "networked-relational"

/-- The mode that a configuration file names. -/
def ofName? (s : String) : Option StorageMode :=
  if s = "none" then some .none
  else if s = "embedded-file-backed" ∨ s = "sqlite" then some .embeddedFile
  else if s = "networked-relational" ∨ s = "postgres" ∨ s = "postgresql" then
    some .networkedRelational
  else Option.none

/-- A word that names no storage mode, in lower case. -/
structure Unknown where
  word : String
deriving DecidableEq, Repr

def Unknown.message (e : Unknown) : String :=
  s!"unknown storage mode '{e.word}' (expected none, embedded-file-backed or networked-relational)"

/-- The mode that a word on the command line names. -/
def parse (s : String) : Except Unknown StorageMode :=
  let word := String.ofList (Text.lower (Text.trim s.toList))
  if word = "memory" ∨ word = "" then .ok .none
  else
    match ofName? word with
    | some mode => .ok mode
    | Option.none => .error ⟨word⟩

end StorageMode

end ServiceGate
