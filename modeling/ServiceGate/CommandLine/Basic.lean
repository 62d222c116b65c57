/-
# The words of a command line

A command takes positional words, switches and options with a value.  Switches have a long name and
may have a short one; several short ones may stand behind one dash.  The value of an option follows
as a word of its own or behind an equals sign.  Behind `--` every word is positional.

A value is looked at once the word after it is understood: `settle` does that.  No switch and no
option may be given twice.
-/
import ServiceGate.Text.Search

namespace ServiceGate

/-- Why a command line asks for nothing that can be done. -/
inductive UsageError where
  | unknownArgument
  | argumentConflict
  /-- A value is missing, or is none of those that are possible. -/
  | invalidValue
  /-- A value cannot be read. -/
  | valueValidation
  /-- A switch is given a value. -/
  | tooManyValues
  | missingRequiredArgument
  | invalidSubcommand
  /-- Help is asked for. -/
  | displayHelp
  /-- The version is asked for. -/
  | displayVersion
  /-- Nothing is asked for at all. -/
  | displayHelpForMissing
deriving DecidableEq, Repr

namespace CommandLine

/-- What an option of a command does. -/
inductive OptionKind where
  | switch
  /-- Takes a value, which must be a fitting one. -/
  | value (check : Text → Option UsageError)
  | help

/-- An option of a command. -/
structure OptionSpec where
  long : String
  short : Option Char
  kind : OptionKind

/-- The words that a command takes. -/
structure Spec where
  options : List OptionSpec
  /-- How many positional words there may be. -/
  positionals : Nat

/-- A command line that has been read in part. -/
structure Draft where
  switches : List String
  values : List (String × Text)
  positionals : List Text
  /-- The option that waits for its value, or whose value is still to be looked at. -/
  pending : Option (OptionSpec × Option Text)

namespace Draft

def empty : Draft := ⟨[], [], [], none⟩

def has (d : Draft) (long : String) : Bool := d.switches.contains long

def value? (d : Draft) (long : String) : Option Text := d.values.lookup long

def take (d : Draft) (o : OptionSpec) (v : Text) : Except UsageError Draft :=
  if (d.value? o.long).isSome then .error .argumentConflict
  else
    match o.kind with
    | .value check =>
      match check v with
      | some e => .error e
      | none => .ok { d with values := d.values ++ [(o.long, v)] }
    | .switch | .help => .error .tooManyValues

def settle (d : Draft) : Except UsageError Draft :=
  match d.pending with
  | none => .ok d
  | some (_, none) => .error .invalidValue
  | some (o, some v) => ({ d with pending := none }).take o v

/-- Takes an option without a value behind it. -/
def takeOption (d : Draft) (o : OptionSpec) : Except UsageError Draft := do
  let d ← d.settle
  match o.kind with
  | .switch =>
    if d.has o.long then .error .argumentConflict
    else .ok { d with switches := d.switches ++ [o.long] }
  | .value _ => .ok { d with pending := some (o, none) }
  | .help => .error .displayHelp

/-- Takes an option given by its long name, with or without a value behind an equals sign. -/
def takeLong (spec : Spec) (d : Draft) (name : Text) (attached : Option Text) :
    Except UsageError Draft :=
  match spec.options.find? (·.long.toList == name), attached with
  | none, _ => .error .unknownArgument
  | some o, none => d.takeOption o
  | some o, some v =>
    match o.kind with
    | .value _ => d.settle >>= fun d => d.take o v
    | .switch | .help => .error .tooManyValues

/-- Takes options given by their short names. -/
def takeShort (spec : Spec) : Draft → Text → Except UsageError Draft
  | d, [] => .ok d
  | d, c :: rest =>
    match spec.options.find? (·.short == some c) with
    | none => .error .unknownArgument
    | some o => d.takeOption o >>= fun d => takeShort spec d rest

def takePositional (spec : Spec) (d : Draft) (word : Text) : Except UsageError Draft :=
  if d.positionals.length < spec.positionals then
    d.settle.map fun d => { d with positionals := d.positionals ++ [word] }
  else .error .unknownArgument

/-- Takes a word that is no option: the value that an option waits for, or a positional word. -/
def takePlain (spec : Spec) (d : Draft) (word : Text) : Except UsageError Draft :=
  match d.pending with
  | some (o, none) => .ok { d with pending := some (o, some word) }
  | _ => d.takePositional spec word

def takeWord (spec : Spec) (d : Draft) : Text → Except UsageError Draft
  | '-' :: '-' :: long =>
    match Text.splitOnce? long '=' with
    | some (name, value) => d.takeLong spec name (some value)
    | none => d.takeLong spec long none
  | '-' :: c :: rest => d.takeShort spec (c :: rest)
  | word => d.takePlain spec word

end Draft

def readWords (spec : Spec) : Draft → List Text → Except UsageError Draft
  | d, [] => d.settle
  | d, word :: rest =>
    if word = ['-', '-'] then (rest.foldlM (Draft.takePositional spec) d) >>= (·.settle)
    else d.takeWord spec word >>= fun d => readWords spec d rest

end CommandLine

end ServiceGate
