/-
# The verdict on a file

`validate` evaluates the rules that apply to a file, in order, and reports the findings of each by
their place, those without a place first.  A file is valid when no blocking rule has found anything.
-/
import ServiceGate.Rule.Registry
import ServiceGate.Sorted

namespace ServiceGate

/-- What the gate says about a file. -/
structure Verdict where
  errors : List Issue
  warnings : List Issue
  /-- The codes of errors that have a repair, sorted. -/
  fixableCodes : List String
  /-- What to do about each code, sorted by code. -/
  remedies : List (String × String)
deriving DecidableEq, Repr

namespace Verdict

/-- The remedy of the first issue of a code. -/
def remedyOf (issues : List Issue) (code : String) : Option (String × String) :=
  (issues.find? (·.code == code)).map fun i => (code, i.remedy)

/-- The verdict that a list of errors and one of warnings make. -/
def ofIssues (errors warnings : List Issue) : Verdict where
  errors := errors
  warnings := warnings
  fixableCodes := sortedSet ((errors.map (·.code)).filter Rule.isFixable)
  remedies := (sortedSet (errors.map (·.code))).filterMap (remedyOf errors)

def isValid (v : Verdict) : Bool := v.errors.isEmpty

def hasCode (v : Verdict) (code : String) : Bool := v.errors.any (·.code == code)

def unfixableErrors (v : Verdict) : List Issue := v.errors.filter (!v.fixableCodes.contains ·.code)

end Verdict

/-- Whether one finding is reported before another: by its place, if it has one. -/
def Finding.notAfter (f g : Finding) : Bool :=
  match f.offset, g.offset with
  | none, _ => true
  | some _, none => false
  | some m, some n => m ≤ n

def Rule.issues (ctx : Context) (rule : Rule) : Except SpanFault (List Issue) :=
  if rule.gate.admits ctx.features then
    (rule.detector.findings ctx).map fun findings =>
      (findings.mergeSort Finding.notAfter).map (rule.issue ctx.source.text)
  else .ok []

/-- The issues of all rules of a level, rule by rule. -/
def issuesOf (level : Level) (ctx : Context) : Except SpanFault (List Issue) :=
  ((Rule.all.filter (·.level = level)).mapM (Rule.issues ctx)).map List.flatten

/-- What a detector may look at in a text. -/
def Context.of (policy : Policy) (mode : StorageMode) (t : Text) : Context :=
  let s := Scan.Source.of t
  ⟨s, Features.detect s mode, policy⟩

def validate (policy : Policy) (mode : StorageMode) (t : Text) : Except SpanFault Verdict := do
  let ctx := Context.of policy mode t
  let errors ← issuesOf .error ctx
  let warnings ← issuesOf .warning ctx
  return .ofIssues errors warnings

end ServiceGate
