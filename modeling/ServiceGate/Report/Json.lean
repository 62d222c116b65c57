/-
# The report as JSON

Totals first, then the codes that a repair is known for, then the issues.  An issue that has no
place has no line and no column.
-/
import ServiceGate.Json.Render
import ServiceGate.Report.Basic

namespace ServiceGate

/-- A field that is left out if it has no value. -/
def numberField (key : String) : Option Nat → List (String × JsonValue)
  | some n => [(key, .number n)]
  | none => []

def ReportedIssue.toJson (i : ReportedIssue) : JsonValue :=
  .fields ([("file", .text i.file), ("rule", .string i.rule), ("severity", .string i.severity.name),
      ("message", .string i.message)] ++
    numberField "line" i.line ++ numberField "column" i.column ++
    [("matched_text", .text i.matched), ("remedy", .string i.remedy), ("fixable", .bool i.fixable)])

/-- The codes among some issues for which there is a repair, in ascending order. -/
def repairableCodes (issues : List ReportedIssue) : List String :=
  sortedSet ((issues.filter (·.fixable)).map (·.rule))

/-- The report on some issues that were found in `checked` files. -/
def jsonReport (checked : Nat) (issues : List ReportedIssue) : JsonValue :=
  .fields [("checked", .number checked), ("errors", .number (errorCount issues)),
    ("warnings", .number (warningCount issues)),
    ("fixable_codes", .strings (repairableCodes issues)),
    ("issues", .list (issues.map ReportedIssue.toJson))]

def renderJson (checked : Nat) (issues : List ReportedIssue) : Text :=
  (jsonReport checked issues).render

end ServiceGate
