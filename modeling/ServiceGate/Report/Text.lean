/-
# The report for a reader

The issues come under the files in which they are reported, and a file is named whenever it differs
from the one before.  A quiet report gives the errors alone; any other adds what to do about each
issue, and what was found in all.
-/
import ServiceGate.Report.Basic
import ServiceGate.Version

namespace ServiceGate

/-- How much a report says. -/
inductive Verbosity where
  | normal
  | quiet
  | verbose
deriving DecidableEq, Repr

namespace Verbosity

/-- The verbosity that two switches choose. -/
def ofSwitches (quiet verbose : Bool) : Verbosity :=
  if quiet then .quiet else if verbose then .verbose else .normal

end Verbosity

/-- The place of an issue behind its code. -/
def placeText (i : ReportedIssue) : String :=
  match i.line, i.column with
  | some l, some c => s!":{l}:{c}"
  | some l, none => s!":{l}"
  | none, _ => ""

def Level.mark : Level → String
  | .error => "❌ ERROR"
  | .warning => "⚠️  WARN "

def issueLine (i : ReportedIssue) : Text :=
  let repair := if i.fixable then " [auto-fix]" else ""
  s!"   {i.severity.mark} [{i.rule}{placeText i}]{repair}: {i.message}".toList

/-- What a reader can do about an issue. -/
def adviceLines (i : ReportedIssue) : List Text :=
  (if i.remedy.isEmpty then [] else [s!"      💡 {i.remedy}".toList]) ++
    [s!"      👉 {toolName} ignore {i.rule} ".toList ++ i.file]

/-- The lines of some issues; `file` is the one that was named last. -/
def issueLinesFrom (verbosity : Verbosity) (file : Text) : List ReportedIssue → List Text
  | [] => []
  | i :: rest =>
    if verbosity = .quiet ∧ i.severity = .warning then issueLinesFrom verbosity file rest
    else
      (if i.file = file then [] else [[], "📄 ".toList ++ i.file]) ++ [issueLine i] ++
        (if verbosity = .quiet then [] else adviceLines i) ++ issueLinesFrom verbosity i.file rest

def issueLines (verbosity : Verbosity) (issues : List ReportedIssue) : List Text :=
  issueLinesFrom verbosity [] issues

def headingLines (verbosity : Verbosity) (files : List SourceFile) : List Text :=
  (if verbosity = .quiet then [] else [[], s!"⚡ Validando {files.length} archivo(s)...".toList]) ++
    if verbosity = .verbose then
      [[], "📂 Archivos procesados:".toList] ++ files.map fun f => "   ".toList ++ f.path
    else []

def summaryLines (verbosity : Verbosity) (checked : Nat) (issues : List ReportedIssue) :
    List Text :=
  if verbosity = .quiet then []
  else if issues.isEmpty then
    [[], s!"✅ Sin problemas detectados en {checked} archivo(s).".toList]
  else
    let totals := s!"🚩 {errorCount issues} error(s)  ⚠️  {warningCount issues} warning(s)"
    let repairs := s!"🔧 {issues.countP (·.fixable)} corregible(s) con \x60{toolName} fix\x60"
    [[], s!"{totals}  {repairs}".toList]

end ServiceGate
