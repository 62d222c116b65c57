/-
# Rules and what they find

A rule has a code, belongs to a group, applies to files with certain features, and detects
violations in one of three ways: a pattern that must not occur in code, a pattern that must occur in
code, or an analysis of the file's structure.  A finding says where; together with its rule it
becomes an issue.

An analysis can be refused an answer by a file whose structure contradicts itself: `SpanFault` is
the one way in which that happens.
-/
import ServiceGate.Features
import ServiceGate.Policy
import ServiceGate.Text.Position

namespace ServiceGate

/-- Whether a violation blocks or only advises. -/
inductive Level where
  | error
  | warning
deriving DecidableEq, Repr

/-- The families of rules, in the order in which they are reported. -/
inductive RuleGroup where
  | alwaysFail
  | conditionalImport
  | requiredEndpoint
  | requiredExport
  | structural
  | specCompleteness
  | advisory
deriving DecidableEq, Repr

/-- The files that a rule applies to. -/
inductive Gate where
  | always
  | hasRoutes
  | usesSchemaLibrary
  | usesIdGenerator
  | definesServiceEntry
  | storage (mode : StorageMode)
deriving DecidableEq, Repr

/-- A stretch of text that would end before it starts. -/
structure SpanFault where
  start : Nat
  stop : Nat
deriving DecidableEq, Repr

/-- One violation. -/
structure Finding where
  /-- Where it stands; `none` for something that is absent. -/
  offset : Option Nat
  matched : Text
  /-- What is said about it instead of the rule's general message. -/
  message : Option String
deriving DecidableEq, Repr

/-- What a detector may look at. -/
structure Context where
  source : Scan.Source
  features : Features
  policy : Policy

/-- How a rule finds violations. -/
inductive Detector where
  /-- Every match in code is a violation. -/
  | forbidden (pattern : Pattern)
  /-- The lack of any match in code is a violation. -/
  | required (pattern : Pattern)
  /-- A check of the file's structure. -/
  | analysis (run : Context → Except SpanFault (List Finding))

/-- A rule of the gate. -/
structure Rule where
  code : String
  group : RuleGroup
  detector : Detector
  message : String
  remedy : String
  level : Level
  gate : Gate

/-- A violation as it is reported. -/
structure Issue where
  code : String
  message : String
  position : Option Position
  matched : Text
  remedy : String
deriving DecidableEq, Repr

def Level.name : Level → String
  | .error => "error"
  | .warning => "warning"

def RuleGroup.name : RuleGroup → String
  | .alwaysFail => "always-fail"
  | .conditionalImport => "conditional-import"
  | .requiredEndpoint => "required-endpoint"
  | .requiredExport => "required-export"
  | .structural => "structural"
  | .specCompleteness => "spec-completeness"
  | .advisory => "advisory"

namespace Gate

def name : Gate → String
  | .always => "always"
  | .hasRoutes => "hasRoutes"
  | .usesSchemaLibrary => "usesSchemaLib"
  | .usesIdGenerator => "usesIdGenerator"
  | .definesServiceEntry => "definesServiceEntry"
  | .storage mode => s!"storageMode={mode.name}"

/-- Whether a file with these features passes the gate.  A file that only mounts routers has no
routes of its own and does not count as a service entry. -/
def admits (f : Features) : Gate → Bool
  | .always => true
  | .hasRoutes => f.hasRoutes
  | .usesSchemaLibrary => f.usesSchemaLibrary
  | .usesIdGenerator => f.usesIdGenerator
  | .definesServiceEntry => f.hasRoutes && f.serviceEntry.isSome
  | .storage mode => f.storageMode == mode

end Gate

namespace Finding

def absent (message : Option String) : Finding := ⟨none, [], message⟩

def found (offset : Nat) (matched : Text) (message : Option String) : Finding :=
  ⟨some offset, matched, message⟩

end Finding

/-- The violations that a detector finds, in its own order. -/
def Detector.findings (ctx : Context) : Detector → Except SpanFault (List Finding)
  | .forbidden pattern =>
    let inCode := (pattern.all ctx.source.text).filter fun m => ctx.source.isCodeAt m.start
    .ok (inCode.map fun m => .found m.start m.text none)
  | .required pattern =>
    if (pattern.all ctx.source.text).any fun m => ctx.source.isCodeAt m.start then .ok []
    else .ok [.absent none]
  | .analysis run => run ctx

/-- The issue that a finding of a rule is. -/
def Rule.issue (rule : Rule) (t : Text) (f : Finding) : Issue where
  code := rule.code
  message := f.message.getD rule.message
  position := f.offset.map t.position
  matched := f.matched
  remedy := rule.remedy

end ServiceGate
