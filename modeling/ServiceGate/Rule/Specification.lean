/-
# Rules on the contract

A file with routes embeds a specification.  Rules compare it with the routes and are silent where
there is none.  What can be created can be listed, with or without a specification: a route that
creates an item of a collection has a `GET` route on the same path, actions and infrastructure
apart.
-/
import ServiceGate.Rule.Basic
import ServiceGate.Spec.Coverage

namespace ServiceGate.Rule

def missingSpec (ctx : Context) : List Finding :=
  if (Spec.find? ctx.source).isSome then [] else [.absent none]

/-- The findings of a rule on the specification, if there is one. -/
def onSpec (rule : Spec → Context → List Finding) (ctx : Context) : List Finding :=
  match Spec.find? ctx.source with
  | none => []
  | some spec => rule spec ctx

/-- The finding for an operation that lacks something. -/
def operationFinding (what : String) (o : SpecOperation) : Finding :=
  .found o.keyAt o.key (some
    s!"Operation {String.ofList o.method.upper} {String.ofList o.path} declares no {what}")

def missingRequestBodies (spec : Spec) (ctx : Context) : List Finding :=
  (spec.withoutRequestBody ctx.source.text ctx.policy).map (operationFinding "requestBody")

def missingResponses (spec : Spec) (ctx : Context) : List Finding :=
  (spec.withoutResponses ctx.source.text).map (operationFinding "responses")

def missingSchemas (spec : Spec) (ctx : Context) : List Finding :=
  (spec.missingSchemas ctx.source ctx.policy).map fun name =>
    .found spec.declaredAt name (some s!"components.schemas is missing '{String.ofList name}'")

/-- All routes that the specification does not declare, in one finding. -/
def drift (spec : Spec) (ctx : Context) : List Finding :=
  match spec.driftKeys ctx.source ctx.policy with
  | [] => []
  | keys =>
    let joined := Text.join ", ".toList keys
    [.found spec.declaredAt joined (some
      s!"Routes implemented in code are missing from the OpenAPI spec: {String.ofList joined}")]

/-! ## List endpoints -/

/-- Whether a path is that of a collection which should be listed. -/
def isCollection (policy : Policy) (path : Text) : Bool :=
  RoutePath.endsStatic path && !policy.isInfraPath path && !policy.isActionPath path

/-- The creating routes on collections that no route lists. -/
def unlistedCreations (policy : Policy) (routes : List Route) : List Route :=
  routes.filter fun r =>
    r.method == "post".toList && isCollection policy r.normalPath &&
      !routes.any fun g => g.method == "get".toList && g.normalPath == r.normalPath

/-- Collections that can be added to and not listed. -/
def missingListEndpoints (ctx : Context) : List Finding :=
  (unlistedCreations ctx.policy (Route.all ctx.source)).map fun r =>
    let path := String.ofList r.normalPath
    .found r.offset ("post ".toList ++ r.normalPath)
      (some s!"POST {path} has no matching GET {path} list endpoint")

end ServiceGate.Rule
