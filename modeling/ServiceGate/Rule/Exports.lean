/-
# Required exports

The file that makes the application object exports it, and exports the function that starts the
service.
-/
import ServiceGate.Rule.Basic

namespace ServiceGate.Rule

open Pattern

def exportList (exported : Text) : Pattern :=
  inOrder [wordEdge, word "export", spaces, word "\x7b", star (noneOf "\x7d"), wordEdge,
    literal exported, wordEdge, star (noneOf "\x7d"), word "\x7d"]

def exportDefault (exported : Text) : Pattern :=
  inOrder [wordEdge, word "export", gap, word "default", gap, literal exported, wordEdge]

/-- The exported declaration of a variable. -/
def exportVariable (exported : Text) : Pattern :=
  inOrder [wordEdge, word "export", gap, anyWord ["const", "let", "var"], gap, literal exported,
    wordEdge]

/-- The exported declaration of a function. -/
def exportFunction (exported : Text) : Pattern :=
  inOrder [wordEdge, word "export", gap, optional (seq (word "default") gap),
    optional (seq (word "async") gap), word "function", gap, literal exported, wordEdge]

/-- Whether an application object of this name is exported. -/
def isAppExported (blanked name : Text) : Bool :=
  [exportDefault name, exportList name, exportVariable name].any (·.occursIn blanked)

/-- Whether a function of this name is exported. -/
def isFunctionExported (blanked name : Text) : Bool :=
  [exportFunction name, exportVariable name, exportList name, exportDefault name].any
    (·.occursIn blanked)

/-- The names of functions that start a service. -/
def startName : Pattern :=
  anyOf [seq (word "start") (star nameChar), seq (word "listen") (star nameChar), word "main",
    word "bootstrap"]

/-- The definition of a start function; its name is the first or the second group. -/
def startDefinition : Pattern :=
  alt
    (inOrder [wordEdge, word "function", gap, capture 1 startName, spaces, word "("])
    (inOrder [wordEdge, anyWord ["const", "let", "var"], gap, capture 2 startName, spaces, word "=",
      spaces, optional (seq (word "async") spaces),
      anyOf [word "(", seq (word "function") wordEdge, inOrder [name, spaces, word "=>"]]])

/-- The start functions with the offsets of their names. -/
def startFunctions (blanked : Text) : List (Text × Nat) :=
  (startDefinition.all blanked).filterMap fun m =>
    ((m.group? 1).or (m.group? 2)).map fun name => (name.text, name.start)

/-- The application object, if it is not exported. -/
def missingAppExport (ctx : Context) : List Finding :=
  match ctx.features.serviceEntry with
  | none => []
  | some app =>
    if isAppExported ctx.source.blanked app then []
    else [.absent (some
      s!"Application object '{String.ofList app}' is constructed here but not exported")]

/-- The first start function that needs to be exported: none if there is none or one of them is. -/
def unexportedStart? (blanked : Text) : Option (Text × Nat) :=
  let starts := startFunctions blanked
  if starts.any fun (name, _) => isFunctionExported blanked name then none else starts.head?

/-- The first start function, if none is exported. -/
def missingStartExport (ctx : Context) : List Finding :=
  match unexportedStart? ctx.source.blanked with
  | none => []
  | some (name, offset) =>
    [.found offset name (some
      s!"Start function '{String.ofList name}' is defined but not exported")]

def missingStartFunction (ctx : Context) : List Finding :=
  if (startFunctions ctx.source.blanked).isEmpty then [.absent none] else []

end ServiceGate.Rule
