/-
# Cuts in the specification

Reading the specification of a text, listing what it lacks and writing its operations, with every
cut checked.  Literals are read at any offset without a refused cut (`readLiteral_eq`), so nothing
here asks for more; the literals that are found are placed (`placed_of_find?`).

A literal may be opened at the value of an entry of another one.  The value's offsets are places of
the text because the outer literal is placed, and the inner literal is placed because it was read
(`placed_of_object?`), so the property goes down to the operations and the schemas.
-/
import ServiceGate.Proofs.Checked.ObjectLiteral
import ServiceGate.Proofs.Checked.Resource
import ServiceGate.Spec.Render

namespace ServiceGate

variable {t : Text} {s : Scan.Source} {spec : Spec} {o : ObjectLiteral} {policy : Policy}

/-! ## Literals of the specification -/

theorem placed_of_object? {e : ObjectEntry} (h : e.object? t = some o) : Placed t o :=
  placed_of_readAt? h

theorem Spec.exists_readAt?_of_find? (h : Spec.find? s = some spec) :
    ∃ n, ObjectLiteral.readAt? s.text n = some spec.literal := by
  obtain ⟨m, -, hm⟩ := List.exists_of_findSome?_eq_some h
  rw [Spec.ofMatch?] at hm
  split_ifs at hm
  split at hm
  · cases hm
  · next literal hliteral =>
      split_ifs at hm
      rw [← Option.some.inj hm]
      exact ⟨_, hliteral⟩

theorem placed_of_find? (h : Spec.find? s = some spec) : Placed s.text spec.literal := by
  obtain ⟨n, hread⟩ := Spec.exists_readAt?_of_find? h
  exact placed_of_readAt? hread

theorem placed_of_paths? (h : spec.paths? t = some o) : Placed t o := by
  obtain ⟨e, -, he⟩ := Option.bind_eq_some_iff.mp h
  exact placed_of_object? he

theorem placed_of_schemas? (h : spec.schemas? t = some o) : Placed t o := by
  obtain ⟨e, -, he⟩ := Option.bind_eq_some_iff.mp h
  exact placed_of_object? he

theorem placed_of_mem_operations {op : SpecOperation} (h : op ∈ spec.operations t)
    (ho : op.object = some o) : Placed t o := by
  rw [Spec.operations] at h
  split at h
  · cases h
  · obtain ⟨e, -, he⟩ := List.mem_flatMap.mp h
    rw [Spec.operationsOfPath] at he
    split at he
    · cases he
    · obtain ⟨e', -, he'⟩ := List.mem_filterMap.mp he
      rw [Spec.operation?] at he'
      split_ifs at he'
      rw [← Option.some.inj he'] at ho
      exact placed_of_object? ho

namespace Checked

/-! ## Finding the specification -/

/-- The specification that a match of `Spec.declaration` declares. -/
def specOfMatch (s : Scan.Source) (m : Match) : Except SpanFault (Option Spec) :=
  if s.isCodeAt m.start then do
    match ← readLiteral s.text (m.stop - 1) with
    | none => return none
    | some literal =>
      if literal.hasKey "openapi".toList || literal.hasKey "swagger".toList then
        return some ⟨m.groupText 1, m.start, literal⟩
      else return none
  else return none

def findSpec (s : Scan.Source) : Except SpanFault (Option Spec) :=
  findSome (specOfMatch s) (Spec.declaration.all s.text)

theorem specOfMatch_eq (s : Scan.Source) (m : Match) :
    specOfMatch s m = .ok (Spec.ofMatch? s m) := by
  rw [specOfMatch, Spec.ofMatch?, readLiteral_eq, ok_bind]
  cases ObjectLiteral.readAt? s.text (m.stop - 1) with
  | none => split_ifs <;> rfl
  | some literal =>
      simp only
      split_ifs <;> rfl

theorem findSpec_eq (s : Scan.Source) : findSpec s = .ok (Spec.find? s) :=
  findSome_eq fun m _ => specOfMatch_eq s m

/-! ## Operations and schemas -/

def valueAt (o : ObjectLiteral) (t key : Text) : Except SpanFault (Option ObjectLiteral) :=
  match o.get? key with
  | none => return none
  | some e => readValue e t

def paths (spec : Spec) (t : Text) : Except SpanFault (Option ObjectLiteral) :=
  valueAt spec.literal t "paths".toList

/-- The operation that an entry of a path item declares. -/
def operation (t path : Text) (e : ObjectEntry) : Except SpanFault (Option SpecOperation) :=
  let method := e.key.lower
  if Spec.methods.contains method then do
    return some ⟨RoutePath.normalize path, method, e.keyAt, ← readValue e t⟩
  else return none

def operationsOfPath (t : Text) (e : ObjectEntry) : Except SpanFault (List SpecOperation) := do
  match ← readValue e t with
  | none => return []
  | some item => filterMap (operation t e.key) item.entries

def operations (spec : Spec) (t : Text) : Except SpanFault (List SpecOperation) := do
  match ← paths spec t with
  | none => return []
  | some paths => flatMap (operationsOfPath t) paths.entries

def operationKeys (spec : Spec) (t : Text) : Except SpanFault (List Text) := do
  return (← operations spec t).map (·.key)

def schemas (spec : Spec) (t : Text) : Except SpanFault (Option ObjectLiteral) := do
  match ← valueAt spec.literal t "components".toList with
  | none => return none
  | some components => valueAt components t "schemas".toList

def schemaNames (spec : Spec) (t : Text) : Except SpanFault (List Text) := do
  return ((← schemas spec t).map (·.keys)).getD []

theorem valueAt_eq (o : ObjectLiteral) (t key : Text) :
    valueAt o t key = .ok ((o.get? key).bind (·.object? t)) := by
  rw [valueAt]
  cases o.get? key with
  | none => rfl
  | some e => exact readValue_eq e t

theorem paths_eq (spec : Spec) (t : Text) : paths spec t = .ok (spec.paths? t) :=
  valueAt_eq _ _ _

theorem operation_eq (t path : Text) (e : ObjectEntry) :
    operation t path e = .ok (Spec.operation? t path e) := by
  simp only [operation, Spec.operation?, readValue_eq, ok_bind]
  split_ifs <;> rfl

theorem operationsOfPath_eq (t : Text) (e : ObjectEntry) :
    operationsOfPath t e = .ok (Spec.operationsOfPath t e) := by
  rw [operationsOfPath, Spec.operationsOfPath, readValue_eq, ok_bind]
  cases e.object? t with
  | none => rfl
  | some item => exact filterMap_eq fun e' _ => operation_eq t e.key e'

theorem operations_eq (spec : Spec) (t : Text) : operations spec t = .ok (spec.operations t) := by
  rw [operations, Spec.operations, paths_eq, ok_bind]
  cases spec.paths? t with
  | none => rfl
  | some paths => exact flatMap_eq fun e _ => operationsOfPath_eq t e

theorem operationKeys_eq (spec : Spec) (t : Text) :
    operationKeys spec t = .ok (spec.operationKeys t) := by
  rw [operationKeys, operations_eq]
  rfl

theorem schemas_eq (spec : Spec) (t : Text) : schemas spec t = .ok (spec.schemas? t) := by
  rw [schemas, Spec.schemas?, valueAt_eq, ok_bind]
  cases (spec.literal.get? "components".toList).bind (·.object? t) with
  | none => rfl
  | some components => exact valueAt_eq components t _

theorem schemaNames_eq (spec : Spec) (t : Text) : schemaNames spec t = .ok
    (spec.schemaNames t) := by
  rw [schemaNames, schemas_eq]
  rfl

/-! ## What is missing -/

/-- The keys of routes in code that the specification does not declare, sorted. -/
def driftKeys (spec : Spec) (s : Scan.Source) (policy : Policy) : Except SpanFault (List Text) := do
  let declared ← operationKeys spec s.text
  let routes := (Route.all s).filter fun r => !policy.isInfraPath r.normalPath
  return sortedSet ((routes.map (·.key)).filter (!declared.contains ·))

/-- Whether an operation that changes a resource lacks a request body. -/
def lacksRequestBody (policy : Policy) (o : SpecOperation) : Except SpanFault Bool := do
  let schema ← expectedSchema policy o.method o.path
  return Route.mutationMethods.contains o.method && schema.isSome &&
    o.object.any (!·.hasKey "requestBody".toList)

/-- The operations without a request body that should have one. -/
def withoutRequestBody (spec : Spec) (t : Text) (policy : Policy) :
    Except SpanFault (List SpecOperation) := do
  filter (lacksRequestBody policy) (← operations spec t)

/-- Whether an operation has no responses or an empty object of them. -/
def lacksResponses (t : Text) (o : SpecOperation) : Except SpanFault Bool :=
  match o.object with
  | none => return false
  | some object =>
    match object.get? "responses".toList with
    | none => return true
    | some entry => do return (← readValue entry t).any (·.entries.isEmpty)

def withoutResponses (spec : Spec) (t : Text) : Except SpanFault (List SpecOperation) := do
  filter (lacksResponses t) (← operations spec t)

/-- The schemas that the routes in code and the declared operations ask for, sorted. -/
def expectedSchemas (spec : Spec) (s : Scan.Source) (policy : Policy) :
    Except SpanFault (List Text) := do
  let ofRoutes ← filterMap (fun r => expectedSchema policy r.method r.normalPath) (Route.all s)
  let ofOperations ← filterMap (fun o => expectedSchema policy o.method o.path)
    (← operations spec s.text)
  return sortedSet (ofRoutes ++ ofOperations)

/-- The expected schemas with whose name no declared schema starts. -/
def missingSchemas (spec : Spec) (s : Scan.Source) (policy : Policy) :
    Except SpanFault (List Text) := do
  let declared ← schemaNames spec s.text
  return (← expectedSchemas spec s policy).filter fun name => !declared.any (·.startsWith name)

theorem driftKeys_eq (spec : Spec) (s : Scan.Source) (policy : Policy) :
    driftKeys spec s policy = .ok (spec.driftKeys s policy) := by
  rw [driftKeys, operationKeys_eq]
  rfl

theorem withoutRequestBody_eq (spec : Spec) (t : Text) (policy : Policy) :
    withoutRequestBody spec t policy = .ok (spec.withoutRequestBody t policy) := by
  rw [withoutRequestBody, operations_eq]
  refine filter_eq fun o _ => ?_
  rw [lacksRequestBody, expectedSchema_eq]
  rfl

theorem withoutResponses_eq (spec : Spec) (t : Text) :
    withoutResponses spec t = .ok (spec.withoutResponses t) := by
  rw [withoutResponses, operations_eq]
  refine filter_eq fun o _ => ?_
  rw [lacksResponses, Spec.lacksResponses]
  cases o.object with
  | none => rfl
  | some object =>
      simp only
      cases object.get? "responses".toList with
      | none => rfl
      | some entry =>
          simp only [readValue_eq]
          rfl

theorem expectedSchemas_eq (spec : Spec) (s : Scan.Source) (policy : Policy) :
    expectedSchemas spec s policy = .ok (spec.expectedSchemas s policy) := by
  rw [expectedSchemas, filterMap_eq fun _ _ => expectedSchema_eq _ _ _, ok_bind, operations_eq,
    ok_bind, filterMap_eq fun _ _ => expectedSchema_eq _ _ _]
  rfl

theorem missingSchemas_eq (spec : Spec) (s : Scan.Source) (policy : Policy) :
    missingSchemas spec s policy = .ok (spec.missingSchemas s policy) := by
  rw [missingSchemas, schemaNames_eq, ok_bind, expectedSchemas_eq]
  rfl

/-! ## Writing operations -/

/-- The summary of an operation on a resource named by `segment`. -/
def resourceSummary (method path segment : Text) : Except SpanFault Text := do
  let one := Spec.resourceWords (← singular segment)
  if method == "get".toList then
    if RoutePath.isItem path then return "Get ".toList ++ one ++ " by id".toList
    else return "List ".toList ++ Spec.resourceWords segment
  else if method == "post".toList then return "Create ".toList ++ one
  else if method == "put".toList || method == "patch".toList then return "Update ".toList ++ one
  else if method == "delete".toList then return "Delete ".toList ++ one
  else return Spec.plainSummary method path

def summary (policy : Policy) (method path : Text) : Except SpanFault Text :=
  match RoutePath.lastStatic? path with
  | none => return Spec.plainSummary method path
  | some segment =>
    if policy.isActionSegment segment then
      let words := Spec.resourceWords segment
      return if words.isEmpty then path else words.capitalize
    else resourceSummary method path segment

def renderOperation (policy : Policy) (method path : Text) : Except SpanFault Text := do
  let title ← summary policy method path
  let schema ← expectedSchema policy method path
  return Spec.braced (Spec.entry "summary".toList (Quoted.encode title) ::
    (schema.map fun schema =>
      Spec.entry "requestBody".toList (Spec.renderRequestBody schema)).toList ++
    [Spec.entry "responses".toList (Spec.renderResponses policy method path)])

theorem summary_eq (policy : Policy) (method path : Text) :
    summary policy method path = .ok (Spec.summary policy method path) := by
  rw [summary, Spec.summary]
  cases RoutePath.lastStatic? path with
  | none => rfl
  | some segment =>
      simp only [resourceSummary, singular_eq, ok_bind, Spec.resourceSummary]
      split_ifs <;> rfl

theorem renderOperation_eq (policy : Policy) (method path : Text) :
    renderOperation policy method path = .ok (Spec.renderOperation policy method path) := by
  rw [renderOperation, summary_eq, ok_bind, expectedSchema_eq]
  rfl

end Checked

end ServiceGate
