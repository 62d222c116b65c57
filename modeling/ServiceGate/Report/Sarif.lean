/-
# The report in SARIF 2.1.0

One run of one tool: the rules that occur, each once and in the order in which they occur first, and
a result for each issue.  A result without a line is placed on the first one.  The fields of each
object are in alphabetical order.
-/
import ServiceGate.Json.Render
import ServiceGate.Report.Basic
import ServiceGate.Version

namespace ServiceGate

/-- The codes that occur among some issues, in the order of their first occurrence. -/
def occurringCodes (issues : List ReportedIssue) : List String :=
  (issues.map (·.rule)).eraseDups

def textObject (s : String) : JsonValue := .fields [("text", .string s)]

/-- What is said of a rule; of a code that no rule has, only its name. -/
def sarifRule (code : String) : JsonValue :=
  match Rule.find? code with
  | some rule => .fields [("help", textObject rule.remedy), ("id", .string code),
      ("properties", .fields [("fixable", .bool (Rule.isFixable code)),
        ("group", .string rule.group.name)]),
      ("shortDescription", textObject rule.message)]
  | none => .fields [("id", .string code), ("shortDescription", textObject code)]

def sarifRegion (i : ReportedIssue) : JsonValue :=
  .fields ((match i.column with
    | some n => [("startColumn", .number n)]
    | none => []) ++ [("startLine", .number (i.line.getD 1))])

def sarifResult (i : ReportedIssue) : JsonValue :=
  .fields [("level", .string i.severity.name),
    ("locations", .list [.fields [("physicalLocation", .fields [
      ("artifactLocation", .fields [("uri", .text i.file), ("uriBaseId", .string "%SRCROOT%")]),
      ("region", sarifRegion i)])]]),
    ("message", textObject i.message), ("ruleId", .string i.rule)]

def sarifSchema : String :=
  "https://raw.githubusercontent.com/oasis-tcs/sarif-spec/master/Schemata/sarif-schema-2.1.0.json"

def sarifReport (issues : List ReportedIssue) : JsonValue :=
  .fields [("$schema", .string sarifSchema),
    ("runs", .list [.fields [
      ("results", .list (issues.map sarifResult)),
      ("tool", .fields [("driver", .fields [("name", .string toolName),
        ("rules", .list ((occurringCodes issues).map sarifRule)),
        ("version", .string toolVersion)])])]]),
    ("version", .string "2.1.0")]

def renderSarif (issues : List ReportedIssue) : Text := (sarifReport issues).render

end ServiceGate
