/-
# Repairs of the code

A parameter of a request that is converted, or on which a method of strings is called, is wrapped in
`String(…)` first.  An export of the application object, or of the start function, is put at the end
of the file.  An unused schema is removed with its statement.  Removing one schema may leave another
unused, so the removal goes on for as many passes as there are unused schemas at first.
-/
import ServiceGate.Repair.Edit
import ServiceGate.Rule.Exports
import ServiceGate.Rule.Patterns
import ServiceGate.Rule.Schemas

namespace ServiceGate.Repair

/-! ## Narrowing parameters -/

/-- Whether one span comes before another: by its start, then by its end. -/
def spanNotAfter (a b : Nat × Nat) : Bool := a.1 < b.1 || (a.1 == b.1 && a.2 ≤ b.2)

/-- The spans of the parameters to wrap, in order, each once. -/
def parameterSpans (s : Scan.Source) : List (Nat × Nat) :=
  let captures := (Forbidden.convertedParameter.all s.text ++
    Forbidden.parameterMethod.all s.text).filterMap (·.group? 1)
  let spans := (captures.filter fun c => s.isCodeAt c.start).map fun c => (c.start, c.stop)
  (spans.mergeSort spanNotAfter).eraseDups

/-- Wraps the stretch between two offsets. -/
def wrapSpan (t : Text) (span : Nat × Nat) : Text :=
  t.splice span.1 span.2 ("String(".toList ++ t.between span.1 span.2 ++ ")".toList)

/-- Wraps the parameters that need it; `none` if there are none. -/
def narrowParameters (t : Text) : Option Text :=
  match parameterSpans (.of t) with
  | [] => none
  | spans => some (spans.foldr (fun span out => wrapSpan out span) t)

/-! ## Exporting what has to be exported -/

def exportOf (name : Text) : Text :=
  "export \x7b ".toList ++ name ++ " \x7d;".toList

/-- Exports the application object; `none` if there is none or it is exported. -/
def exportApp (t : Text) : Option Text :=
  let blanked := Scan.blank t
  match Features.entryDeclaration.first? blanked with
  | none => none
  | some m =>
    let name := m.groupText 1
    if Rule.isAppExported blanked name then none else some (appendStatement t (exportOf name))

/-- Exports the first start function; `none` if there is none or one is exported. -/
def exportStart (t : Text) : Option Text :=
  (Rule.unexportedStart? (Scan.blank t)).map fun (name, _) => appendStatement t (exportOf name)

/-! ## Removing unused schemas -/

/-- Removes the statement of the schema whose name stands at an offset, from the start of the line
of the name. -/
def removeSchema (t : Text) (n : Nat) : Text :=
  removeSpan t (t.lineStart n) (statementStop t n)

/-- Removes the schemas that are unused, pass after pass. -/
def removeSchemaPasses : (passes : Nat) → Text → Text
  | 0, t => t
  | passes + 1, t =>
    match Rule.unusedSchemas (Scan.blank t) with
    | [] => t
    | unused =>
      removeSchemaPasses passes (unused.foldr (fun (_, offset) out => removeSchema out offset) t)

/-- Removes unused schemas; `none` if there are none. -/
def removeUnusedSchemas (t : Text) : Option Text :=
  match (Rule.unusedSchemas (Scan.blank t)).length with
  | 0 => none
  | passes => some (removeSchemaPasses passes t)

end ServiceGate.Repair
