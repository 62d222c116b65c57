/-
# The embedded specification

A service declares its OpenAPI description as an object literal with an entry `openapi` or
`swagger`.  The operations are the methods below the entries of `paths`, the schemas the entries of
`components.schemas`; whatever is not written as a literal in place is left out.
-/
import ServiceGate.ObjectLiteral.Basic
import ServiceGate.Route.Path
import ServiceGate.Pattern.Match
import ServiceGate.Scan.Blank

namespace ServiceGate

/-- The specification and the variable it is bound to. -/
structure Spec where
  name : Text
  /-- Where the declaration starts. -/
  declaredAt : Nat
  literal : ObjectLiteral
deriving DecidableEq, Repr

/-- One operation below `paths`. -/
structure SpecOperation where
  /-- The path in normal form. -/
  path : Text
  method : Text
  keyAt : Nat
  /-- The operation, if it is an object literal in place. -/
  object : Option ObjectLiteral
deriving DecidableEq, Repr

def SpecOperation.key (o : SpecOperation) : Text := RoutePath.key o.method o.path

namespace Spec

/-- The methods that an operation can have. -/
def methods : List Text :=
  ["get", "post", "put", "patch", "delete", "head", "options"].map String.toList

open Pattern in
/-- The declaration of a variable up to the brace of the object bound to it; the group is the
variable. -/
def declaration : Pattern :=
  inOrder [wordEdge, anyWord ["const", "let", "var"], gap, capture 1 Pattern.name, spaces,
    optional (inOrder [word ":", spaces, plusLazy (noneOf "=;")]), word "=", spaces, word "\x7b"]

/-- The specification that a match of `declaration` declares. -/
def ofMatch? (s : Scan.Source) (m : Match) : Option Spec :=
  if s.isCodeAt m.start then
    match ObjectLiteral.readAt? s.text (m.stop - 1) with
    | none => none
    | some literal =>
      if literal.hasKey "openapi".toList || literal.hasKey "swagger".toList then
        some ⟨m.groupText 1, m.start, literal⟩
      else none
  else none

/-- The first specification of a source. -/
def find? (s : Scan.Source) : Option Spec := (declaration.all s.text).findSome? (ofMatch? s)

def paths? (spec : Spec) (t : Text) : Option ObjectLiteral :=
  (spec.literal.get? "paths".toList).bind (·.object? t)

/-- The operation that an entry of a path item declares. -/
def operation? (t path : Text) (e : ObjectEntry) : Option SpecOperation :=
  let method := e.key.lower
  if methods.contains method then some ⟨RoutePath.normalize path, method, e.keyAt, e.object? t⟩
  else none

/-- The operations below one entry of `paths`. -/
def operationsOfPath (t : Text) (e : ObjectEntry) : List SpecOperation :=
  match e.object? t with
  | none => []
  | some item => item.entries.filterMap (operation? t e.key)

def operations (spec : Spec) (t : Text) : List SpecOperation :=
  match spec.paths? t with
  | none => []
  | some paths => paths.entries.flatMap (operationsOfPath t)

/-- The keys of the operations, in order. -/
def operationKeys (spec : Spec) (t : Text) : List Text := (spec.operations t).map (·.key)

/-- The literal of `components.schemas`. -/
def schemas? (spec : Spec) (t : Text) : Option ObjectLiteral :=
  (((spec.literal.get? "components".toList).bind (·.object? t)).bind
    (·.get? "schemas".toList)).bind (·.object? t)

def schemaNames (spec : Spec) (t : Text) : List Text :=
  ((spec.schemas? t).map (·.keys)).getD []

end Spec

end ServiceGate
