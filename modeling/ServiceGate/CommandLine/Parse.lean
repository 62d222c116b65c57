/-
# What a command line asks for

The first word names a command, or asks for help or the version; the words behind it are the
command's own.
-/
import ServiceGate.Command.Fix
import ServiceGate.Command.Ignore
import ServiceGate.CommandLine.Basic

namespace ServiceGate

/-- What is asked of the gate. -/
inductive Request where
  | check (request : CheckRequest)
  | fix (request : FixRequest)
  | rules
  | ignore (request : IgnoreRequest)
deriving DecidableEq, Repr

namespace CommandLine

def switch (long : String) (short : Option Char) : OptionSpec := ⟨long, short, .switch⟩

def help : OptionSpec := ⟨"help", some 'h', .help⟩

/-- The forms of a report, by the names that choose them. -/
def formats : List (Text × ReportFormat) :=
  [("text".toList, .text), ("json".toList, .json), ("sarif".toList, .sarif)]

/-- The option that chooses the form of a report. -/
def format : OptionSpec :=
  ⟨"format", none, .value fun v => if (formats.lookup v).isSome then none else some .invalidValue⟩

/-- The option that chooses the storage mode. -/
def storageMode : OptionSpec :=
  ⟨"storage-mode", none, .value fun v =>
    match StorageMode.parse (String.ofList v) with
    | .ok _ => none
    | .error _ => some .valueValidation⟩

def checkSpec : Spec :=
  ⟨[storageMode, format, switch "quiet" (some 'q'), switch "verbose" (some 'v'), help], 1⟩

def fixSpec : Spec :=
  ⟨[storageMode, switch "write" none, switch "quiet" (some 'q'), switch "verbose" (some 'v'), help],
    1⟩

def rulesSpec : Spec := ⟨[help], 0⟩

/-- The words of a command on suppressions. -/
def ignoreSpec : Spec :=
  ⟨[switch "list" none, ⟨"clear", none, .value fun _ => none⟩, help], 2⟩

/-- The target of a command, which cannot be both quiet and verbose. -/
def targetOf (d : Draft) : Except UsageError Text :=
  if d.has "quiet" && d.has "verbose" then .error .argumentConflict
  else
    match d.positionals with
    | target :: _ => .ok target
    | [] => .error .missingRequiredArgument

def modeOf (d : Draft) : Option StorageMode :=
  (d.value? "storage-mode").bind fun v => (StorageMode.parse (String.ofList v)).toOption

/-- The form of a report that was chosen. -/
def formatOf (d : Draft) : ReportFormat :=
  ((d.value? "format").bind fun v => formats.lookup v).getD .text

def readCheck (words : List Text) : Except UsageError Request := do
  let d ← readWords checkSpec .empty words
  return .check ⟨← targetOf d, modeOf d, formatOf d, d.has "quiet", d.has "verbose"⟩

def readFix (words : List Text) : Except UsageError Request := do
  let d ← readWords fixSpec .empty words
  return .fix ⟨← targetOf d, modeOf d, d.has "write", d.has "quiet", d.has "verbose"⟩

/-- Reads the words of a list of the rules. -/
def readRules (words : List Text) : Except UsageError Request := do
  let _ ← readWords rulesSpec .empty words
  return .rules

/-- Reads the words of a command on suppressions. -/
def readIgnore (words : List Text) : Except UsageError Request := do
  let d ← readWords ignoreSpec .empty words
  return .ignore ⟨d.positionals[0]?, d.positionals[1]?, d.has "list", d.value? "clear"⟩

def commands : List (Text × (List Text → Except UsageError Request)) :=
  [("check".toList, readCheck), ("fix".toList, readFix), ("rules".toList, readRules),
    ("ignore".toList, readIgnore)]

/-- Whether a word names a command or the command that helps with the others. -/
def isCommand (word : Text) : Bool :=
  word == "help".toList || (commands.lookup word).isSome

/-- Help is asked for with a command, which must be the only word. -/
def readHelp : List Text → UsageError
  | [] => .displayHelp
  | [word] => if isCommand word then .displayHelp else .invalidSubcommand
  | _ => .invalidSubcommand

/-- The options in front of any command. -/
def readTopOption : Text → UsageError
  | '-' :: name =>
    match Text.splitOnce? name '=' with
    | some (long, _) =>
      if long = "help".toList ∨ long = "version".toList then .tooManyValues else .unknownArgument
    | none =>
      if name = "help".toList then .displayHelp
      else if name = "version".toList then .displayVersion
      else .unknownArgument
  | 'h' :: _ => .displayHelp
  | 'V' :: _ => .displayVersion
  | _ => .unknownArgument

def parse : List Text → Except UsageError Request
  | [] => .error .displayHelpForMissing
  | word :: rest =>
    match commands.lookup word with
    | some read => read rest
    | none =>
      if word = "help".toList then .error (readHelp rest)
      else
        match word with
        | ['-', '-'] =>
          match rest with
          | [] => .error .displayHelpForMissing
          | next :: _ => .error (if isCommand next then .unknownArgument else .invalidSubcommand)
        | '-' :: c :: name => .error (readTopOption (c :: name))
        | _ => .error .invalidSubcommand

end CommandLine

end ServiceGate
