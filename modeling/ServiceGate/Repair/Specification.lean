/-
# Writing and completing the specification

A service without a specification gets one made from its routes.  One that has a specification gets
what is missing added entry by entry; every addition is made to the text as it is then, and the
specification is looked up again.
-/
import ServiceGate.ObjectLiteral.Insert
import ServiceGate.Spec.Render
import ServiceGate.Import.Read
import ServiceGate.Features

namespace ServiceGate.Repair

/-- The variable that a new specification is bound to. -/
def specName : Text := "openApiSpec".toList

def specOf? (t : Text) : Option Spec := Spec.find? (.of t)

/-! ## A new specification -/

/-- Adds a value at the end of a list unless it is there. -/
def addOnce (as : List Text) (a : Text) : List Text := if as.contains a then as else as ++ [a]

/-- Adds a method to a path's methods, and the path if it is new. -/
def addMethod (path method : Text) : List (Text × List Text) → List (Text × List Text)
  | [] => [(path, [method])]
  | (p, methods) :: rest =>
    if p = path then (p, addOnce methods method) :: rest
    else (p, methods) :: addMethod path method rest

/-- The paths of routes with their methods, in order of first appearance. -/
def methodsByPath (routes : List Route) : List (Text × List Text) :=
  routes.foldl (fun paths r => addMethod r.normalPath r.method paths) []

/-- The schemas that routes ask for, in order of first appearance. -/
def schemasOf (policy : Policy) (routes : List Route) : List Text :=
  (routes.filterMap fun r => Spec.expectedSchema? policy r.method r.normalPath).foldl addOnce []

/-- The lines of a path with its operations. -/
def pathLines (policy : Policy) (path : Text) (methods : List Text) : Text :=
  "    ".toList ++ Quoted.encode path ++ ": \x7b\n".toList ++
    (methods.flatMap fun method =>
      "      ".toList ++ Spec.entry method (Spec.renderOperation policy method path) ++
        ",\n".toList) ++
    "    \x7d,\n".toList

def schemaLine (name : Text) : Text :=
  "      ".toList ++ Spec.entry name "\x7b type: 'object' \x7d,\n".toList

/-- The declaration of a specification for some routes. -/
def specFor (policy : Policy) (routes : List Route) : Text :=
  "const ".toList ++ specName ++
    " = \x7b\n  openapi: '3.0.0',\n  info: \x7b title: 'API', version: '1.0.0' \x7d,\n  paths: \x7b\n".toList ++
    ((methodsByPath routes).flatMap fun (path, methods) => pathLines policy path methods) ++
    "  \x7d,\n  components: \x7b\n    schemas: \x7b\n".toList ++
    (schemasOf policy routes).flatMap schemaLine ++
    "    \x7d,\n  \x7d,\n\x7d;".toList

open Pattern in
/-- The declaration of the application object with the semicolon that may end it. -/
def entryStatement : Pattern :=
  inOrder [Features.entryDeclaration, spaces, optional (word ";")]

/-- Where a new specification goes: behind the application object, or else the imports. -/
def specOffset (s : Scan.Source) : Nat :=
  match entryStatement.first? s.blanked with
  | some m => m.stop
  | none => ((ImportStatement.all s).getLast?.map (·.stop)).getD 0

/-- Declares a specification for the routes in code; `none` if there is one or there are no
routes. -/
def synthesizeSpec (policy : Policy) (t : Text) : Option Text :=
  let s := Scan.Source.of t
  let routes := Route.all s
  if (Spec.find? s).isSome || routes.isEmpty then none
  else
    let spec := specFor policy (routes.filter fun r => !policy.isInfraPath r.normalPath)
    match specOffset s with
    | 0 => some (spec ++ "\n\n".toList ++ t)
    | n => some (t.insertAt n ("\n\n".toList ++ spec))

/-! ## Completing a specification -/

/-- The text with `paths` in its specification. -/
def ensurePaths (t : Text) : Option Text :=
  (specOf? t).map fun spec =>
    if spec.literal.hasKey "paths".toList then t
    else spec.literal.insertEntry t "paths: \x7b\x7d".toList

/-- The text with `components.schemas` in its specification. -/
def ensureSchemas (t : Text) : Option Text := do
  let spec ← specOf? t
  match spec.literal.get? "components".toList with
  | none => return spec.literal.insertEntry t "components: \x7b schemas: \x7b\x7d \x7d".toList
  | some entry =>
    let components ← entry.object? t
    if components.hasKey "schemas".toList then return t
    else return components.insertEntry t "schemas: \x7b\x7d".toList

/-- Declares an operation; the answer tells whether anything was written, which is not so where the
path has a value that is no literal. -/
def declareOperation (policy : Policy) (method path : Text) (t : Text) :
    Option (Text × Bool) := do
  let spec ← specOf? t
  let paths ← spec.paths? t
  let operation := Spec.renderOperation policy method path
  match paths.entries.find? fun e => RoutePath.normalize e.key == path with
  | none =>
    let item := Spec.braced [Spec.entry method operation]
    return (paths.insertEntry t (Spec.entry (Quoted.encode path) item), true)
  | some entry =>
    match entry.object? t with
    | none => return (t, false)
    | some item => return (item.insertEntry t (Spec.entry method operation), true)

/-- Declares the operations of several keys; the answer tells whether anything was written. -/
def declareOperations (policy : Policy) : List Text → Text → Option (Text × Bool)
  | [], t => some (t, false)
  | key :: rest, t =>
    match Text.splitOnce? key ':' with
    | none => declareOperations policy rest t
    | some (method, path) => do
      let (out, written) ← declareOperation policy method path t
      let (last, more) ← declareOperations policy rest out
      return (last, written || more)

/-- Declares every route that the specification lacks; `none` if nothing could be written. -/
def injectDrift (policy : Policy) (t : Text) : Option Text := do
  let t ← ensurePaths t
  let spec ← specOf? t
  let (out, written) ← declareOperations policy (spec.driftKeys (.of t) policy) t
  if written then return out else none

/-- Gives request bodies to operations that lack one, at most `rounds` of them. -/
def completeRequestBodies (policy : Policy) : (rounds : Nat) → Text → Option Text
  | 0, t => some t
  | rounds + 1, t => do
    let spec ← specOf? t
    match (spec.withoutRequestBody t policy).head? with
    | none => return t
    | some operation =>
      match operation.object, Spec.expectedSchema? policy operation.method operation.path with
      | some object, some schema =>
        completeRequestBodies policy rounds
          (object.insertEntry t (Spec.entry "requestBody".toList (Spec.renderRequestBody schema)))
      | _, _ => return t

/-- Gives every operation the request body that it lacks; `none` if none lacks one. -/
def injectRequestBodies (policy : Policy) (t : Text) : Option Text := do
  let spec ← specOf? t
  match (spec.withoutRequestBody t policy).length with
  | 0 => none
  | rounds => completeRequestBodies policy rounds t

/-- Puts responses into an operation, in the place of an empty object of them. -/
def writeResponses (t : Text) (object : ObjectLiteral) (responses : Text) : Text :=
  match (object.get? "responses".toList).bind (·.object? t) with
  | some old => t.splice old.openAt (old.closeAt + 1) responses
  | none => object.insertEntry t (Spec.entry "responses".toList responses)

/-- Gives responses to operations that lack them, at most `rounds` of them. -/
def completeResponses (policy : Policy) : (rounds : Nat) → Text → Option Text
  | 0, t => some t
  | rounds + 1, t => do
    let spec ← specOf? t
    match (spec.withoutResponses t).head? with
    | none => return t
    | some operation =>
      match operation.object with
      | none => return t
      | some object =>
        completeResponses policy rounds (writeResponses t object
          (Spec.renderResponses policy operation.method operation.path))

/-- Gives every operation the responses that it lacks; `none` if none lacks them. -/
def injectResponses (policy : Policy) (t : Text) : Option Text := do
  let spec ← specOf? t
  match (spec.withoutResponses t).length with
  | 0 => none
  | rounds => completeResponses policy rounds t

def declareSchema (t name : Text) : Option Text := do
  let spec ← specOf? t
  let schemas ← spec.schemas? t
  return schemas.insertEntry t (Spec.entry name "\x7b type: 'object' \x7d".toList)

/-- Declares every schema that is missing; `none` if none is. -/
def injectSchemas (policy : Policy) (t : Text) : Option Text := do
  let t ← ensureSchemas t
  let spec ← specOf? t
  match spec.missingSchemas (.of t) policy with
  | [] => none
  | names => names.foldlM declareSchema t

end ServiceGate.Repair
