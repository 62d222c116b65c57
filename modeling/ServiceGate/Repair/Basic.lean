/-
# Repairing files

Each repairable code has one step.  The steps for the codes that were reported run in a fixed order,
each on what the one before has left.  A text that is not balanced is left alone, and a result that
is not balanced is given up for the text as it was.

A file of a service is judged, repaired for the errors found if one of them has a repair, and left
as it is otherwise.
-/
import ServiceGate.Project
import ServiceGate.Repair.Endpoints
import ServiceGate.Repair.Statements

namespace ServiceGate

/-- What became of a file. -/
structure RepairReport where
  text : Text
  /-- The codes whose step changed the text, in order. -/
  applied : List String
  /-- Whether the result was given up. -/
  reverted : Bool
deriving DecidableEq, Repr

namespace Repair

/-- A repair: `none` where there is nothing to change. -/
abbrev Repairer := Policy → Text → Option Text

/-- The repairs by code, in the order in which they run. -/
def steps : List (String × Repairer) := [
  ("UNUSED_OPTIONAL_IMPORT", removeUnusedOptionalMembers),
  ("UNUSED_SCHEMA", fun _ => removeUnusedSchemas),
  ("FORBIDDEN_UUID_DEPENDENCY", fun _ => replaceIdentifierPackage),
  ("NAMESPACED_EXPRESS_TYPE", fun _ => unqualifyTypes),
  ("UNNARROWED_PARAM", fun _ => narrowParameters),
  ("MISSING_ZOD_IMPORT", fun _ => addImport "zod" [] ["z"]),
  ("MISSING_UUID_IMPORT", fun _ => addImport "crypto" ["node:crypto"] ["randomUUID"]),
  ("MISSING_OPENAPI_SPEC", synthesizeSpec),
  ("SPEC_DRIFT", injectDrift),
  ("SPEC_MISSING_REQUEST_BODY", injectRequestBodies),
  ("SPEC_MISSING_RESPONSES", injectResponses),
  ("SPEC_MISSING_SCHEMAS", injectSchemas),
  ("MISSING_HEALTH_ENDPOINT", fun _ => injectEndpoint .health),
  ("MISSING_ROOT_ENDPOINT", fun _ => injectEndpoint .root),
  ("MISSING_DOCS_ENDPOINT", fun _ => injectEndpoint .docs),
  ("MISSING_SPEC_ENDPOINT", fun _ => injectEndpoint .spec),
  ("MISSING_EXPRESS_TYPES_IMPORT", fun _ => addImport "express" [] ["Request", "Response"]),
  ("MISSING_APP_EXPORT", fun _ => exportApp),
  ("MISSING_START_EXPORT", fun _ => exportStart)]

/-- The text behind one step, if it has changed. -/
def runStep? (policy : Policy) (step : Repairer) (t : Text) : Option Text :=
  (step policy t).bind fun new => if new = t then none else some new

/-- The text behind the steps of the reported codes, and the codes that have changed it. -/
def runSteps (policy : Policy) (codes : List String) :
    List (String × Repairer) → Text → Text × List String
  | [], t => (t, [])
  | (code, step) :: rest, t =>
    match if codes.contains code then runStep? policy step t else none with
    | none => runSteps policy codes rest t
    | some new =>
      let (out, applied) := runSteps policy codes rest new
      (out, code :: applied)

/-- Repairs what the reported codes stand for. -/
def apply (policy : Policy) (codes : List String) (t : Text) : RepairReport :=
  if !Scan.balanced t then ⟨t, [], false⟩
  else
    let (out, applied) := runSteps policy codes steps t
    if Scan.balanced out then ⟨out, applied, false⟩ else ⟨t, [], true⟩

end Repair

/-! ## The files of a service -/

/-- What became of a file of the service. -/
structure FileRepair where
  path : Text
  report : RepairReport
deriving DecidableEq, Repr

namespace FileRepair

def result (r : FileRepair) : SourceFile := ⟨r.path, r.report.text⟩

end FileRepair

/-- Judges a file and repairs what can be repaired. -/
def repairFile (policy : Policy) (mode : StorageMode) (f : SourceFile) :
    Except SpanFault FileRepair :=
  (validate policy mode f.text).map fun v =>
    if v.fixableCodes.isEmpty then ⟨f.path, f.text, [], false⟩
    else ⟨f.path, Repair.apply policy (v.errors.map (·.code)) f.text⟩

/-- Judges and repairs the files of a service. -/
def repairFiles (policy : Policy) (mode : StorageMode) (files : List SourceFile) :
    Except SpanFault (List FileRepair) :=
  files.mapM (repairFile policy mode)

end ServiceGate
