/-
# What is reported of a service

`reportedIssues` lists the issues of a service file by file, errors in front of warnings, then the
collisions between files, each under the first file that takes part in it.  Suppressed issues are
left out.
-/
import ServiceGate.Project
import ServiceGate.Suppression

namespace ServiceGate

/-- An issue under the file in which it is reported. -/
structure ReportedIssue where
  file : Text
  rule : String
  severity : Level
  message : String
  line : Option Nat
  column : Option Nat
  matched : Text
  remedy : String
  /-- Whether the rule has a repair. -/
  fixable : Bool
deriving DecidableEq, Repr

namespace ReportedIssue

/-- An issue as it is reported in a file. -/
def ofIssue (file : Text) (severity : Level) (i : Issue) : ReportedIssue where
  file := file
  rule := i.code
  severity := severity
  message := i.message
  line := i.position.map (·.line)
  column := i.position.map (·.column)
  matched := i.matched
  remedy := i.remedy
  fixable := Rule.isFixable i.code

def isError (i : ReportedIssue) : Bool := i.severity == .error

def isSuppressed (entries : List Suppression) (i : ReportedIssue) : Bool :=
  Suppression.anyCovers entries i.rule.toList i.file

end ReportedIssue

/-- The issues of one file, errors first. -/
def fileIssues (file : Text) (v : Verdict) : List ReportedIssue :=
  v.errors.map (.ofIssue file .error) ++ v.warnings.map (.ofIssue file .warning)

/-- The first file that exports a name, or the empty path. -/
def firstOwner (files : List SourceFile) (symbol : Text) : Text :=
  match files.find? fun f => (exportedSymbols f.text).contains symbol with
  | some f => f.path
  | none => []

/-- The collisions between files, each under the first file that takes part in it. -/
def collisionIssues (v : ProjectVerdict) (files : List SourceFile) : List ReportedIssue :=
  (v.aggregate.errors.filter (·.code == duplicateExport)).map fun i =>
    .ofIssue (firstOwner files i.matched) .error i

/-- All issues of a service, suppressed or not. -/
def allIssues (v : ProjectVerdict) (files : List SourceFile) : List ReportedIssue :=
  v.perFile.flatMap (fun (path, verdict) => fileIssues path verdict) ++ collisionIssues v files

/-- The issues of a service that are not suppressed. -/
def reportedIssues (v : ProjectVerdict) (files : List SourceFile) (entries : List Suppression) :
    List ReportedIssue :=
  (allIssues v files).filter (!·.isSuppressed entries)

def errorCount (issues : List ReportedIssue) : Nat := issues.countP (·.isError)

def warningCount (issues : List ReportedIssue) : Nat := issues.countP (!·.isError)

end ServiceGate
