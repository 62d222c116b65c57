/-
# What the code asks of the specification

A route that is not part of the infrastructure should be declared as an operation; an operation that
changes a resource should have a request body and its schema, and every operation should have
responses.  Each function lists what is missing.
-/
import ServiceGate.Policy
import ServiceGate.Route.Basic
import ServiceGate.Route.Path
import ServiceGate.Sorted
import ServiceGate.Spec.Basic

namespace ServiceGate.Spec

/-- The schema that a change of the resource on a path is expected to refer to. -/
def expectedSchema? (policy : Policy) (method path : Text) : Option Text :=
  if policy.isInfraPath path || policy.isActionPath path then none
  else
    match Resource.ofPath? path with
    | none => none
    | some resource =>
      if method == "post".toList then some ("Create".toList ++ resource)
      else if method == "put".toList || method == "patch".toList then
        some ("Update".toList ++ resource)
      else none

/-- The keys of routes in code that the specification does not declare, sorted. -/
def driftKeys (spec : Spec) (s : Scan.Source) (policy : Policy) : List Text :=
  let declared := spec.operationKeys s.text
  let routes := (Route.all s).filter fun r => !policy.isInfraPath r.normalPath
  sortedSet ((routes.map (·.key)).filter (!declared.contains ·))

/-- Whether an operation that changes a resource lacks a request body. -/
def lacksRequestBody (policy : Policy) (o : SpecOperation) : Bool :=
  Route.mutationMethods.contains o.method && (expectedSchema? policy o.method o.path).isSome &&
    o.object.any (!·.hasKey "requestBody".toList)

/-- The operations without a request body that should have one. -/
def withoutRequestBody (spec : Spec) (t : Text) (policy : Policy) : List SpecOperation :=
  (spec.operations t).filter (lacksRequestBody policy)

/-- Whether an operation has no responses or an empty object of them. -/
def lacksResponses (t : Text) (o : SpecOperation) : Bool :=
  match o.object with
  | none => false
  | some object =>
    match object.get? "responses".toList with
    | none => true
    | some entry => (entry.object? t).any (·.entries.isEmpty)

def withoutResponses (spec : Spec) (t : Text) : List SpecOperation :=
  (spec.operations t).filter (lacksResponses t)

/-- The schemas that the routes in code and the declared operations ask for, sorted. -/
def expectedSchemas (spec : Spec) (s : Scan.Source) (policy : Policy) : List Text :=
  sortedSet
    ((Route.all s).filterMap (fun r => expectedSchema? policy r.method r.normalPath) ++
      (spec.operations s.text).filterMap fun o => expectedSchema? policy o.method o.path)

/-- The expected schemas with whose name no declared schema starts. -/
def missingSchemas (spec : Spec) (s : Scan.Source) (policy : Policy) : List Text :=
  let declared := spec.schemaNames s.text
  (spec.expectedSchemas s policy).filter fun name => !declared.any (·.startsWith name)

end ServiceGate.Spec
