/-
# Cuts in the repairs of the specification

Writing a specification and completing one, with every cut checked.  Entries are added to literals
that were found in the text as it is then.  A new specification goes behind a declaration that was
found in the blanked text; the declaration takes all white space behind it, so that it ends at a
place of the text itself (`isBoundary_of_entryStatement`).

A completion has two ways to end: its rounds are used up, or the specification is found no more. In
both it answers with what it has, checked or not; so the equality of the two loops is shown by
induction on the rounds, with the text as it is in each of them.
-/
import ServiceGate.Proofs.Checked.Rules
import ServiceGate.Repair.Specification

namespace ServiceGate

open Pattern Scan
open Text (Bounds)

variable {α β : Type} {t : Text} {m : Match} {policy : Policy}

/-! ## Where a declaration ends -/

/-- The declaration of the application object ends where no white space follows, or behind a
semicolon. -/
theorem exists_of_entryStatement (h : Repair.entryStatement.first? t = some m) :
    ∃ p q, t = p ++ q ∧ m.stop = Text.size p ∧
      (q.head?.any CharClass.isSpace = false ∨ ∃ p', p = p' ++ [';']) := by
  obtain ⟨front, rest, rfl, hm⟩ := exists_of_first? h
  obtain ⟨r', hr, rfl⟩ := Option.map_eq_some_iff.mp hm
  obtain ⟨r, hr₀, hr⟩ := exists_leads Features.entryDeclaration hr
  obtain ⟨u, -, hu, -⟩ := hr₀.moves
  have htotal : ∀ r, ((optional (word ";")).run ((front ++ rest).length + 1) some r).isSome =
      true := by
    intro r
    rw [Pattern.optional, run]
    cases (word ";").run ((front ++ rest).length + 1) some r <;> rfl
  have hlength : r.cursor.rest.length ≤ (front ++ rest).length + 1 := by
    have hrest := congrArg List.length hu.rest
    simp only [List.length_append] at hrest ⊢
    omega
  obtain ⟨v, r₁, hv, hstop, hr₁⟩ := exists_of_repeated htotal _ hlength hr
  obtain ⟨r₂, hleads, hr₂⟩ := exists_leads _ hr₁
  obtain rfl := (Option.some.inj hr₂).symm
  have huv := hu.trans hv
  cases hleads with
  | altFirst hsign =>
      obtain ⟨w, -, hw, hspells, -⟩ := hsign.moves
      obtain rfl := spells_literal hspells
      have hall := huv.trans hw
      refine ⟨front ++ (u ++ v ++ ";".toList), r'.cursor.rest, ?_, ?_, .inr ⟨front ++ (u ++ v), ?_⟩⟩
      · rw [List.append_assoc, ← hall.rest]
      · exact hall.offset.trans (Text.size_append _ _).symm
      · simp
  | altSecond hempty =>
      cases hempty with
      | empty =>
          refine ⟨front ++ (u ++ v), r'.cursor.rest, ?_, ?_, .inl hstop⟩
          · rw [List.append_assoc, ← huv.rest]
          · exact huv.offset.trans (Text.size_append _ _).symm

/-- In the blanked text it ends at a place of the text itself. -/
theorem isBoundary_of_entryStatement (h : Repair.entryStatement.first? (blank t) = some m) :
    t.IsBoundary m.stop := by
  obtain ⟨p, q, hcut, hstop, hq | ⟨p', rfl⟩⟩ := exists_of_entryStatement h
  · cases q with
    | nil =>
        rw [hstop, ← List.append_nil p, ← hcut, size_blank]
        exact Text.isBoundary_size t
    | cons c q =>
        have hc : c ≠ ' ' := by
          rintro rfl
          have hspace : CharClass.isSpace ' ' = true := by decide
          simp [hspace] at hq
        obtain ⟨p₀, q₀, rfl, hsize⟩ := exists_of_blank hc hcut
        rw [hstop, ← hsize]
        exact Text.isBoundary_append p₀ _
  · rw [List.append_assoc] at hcut
    obtain ⟨p₀, q₀, rfl, hsize⟩ := exists_of_blank (by decide) hcut
    have hfront : m.stop = Text.size (p₀ ++ [';']) := by
      rw [hstop, Text.size_append, Text.size_append, hsize]
    rw [hfront, ← List.singleton_append, ← List.append_assoc]
    exact Text.isBoundary_append _ q₀

theorem isBoundary_specOffset (t : Text) : t.IsBoundary (Repair.specOffset (.of t)) := by
  rw [Repair.specOffset]
  split
  · next m hm => exact isBoundary_of_entryStatement hm
  · cases hlast : (ImportStatement.all (.of t)).getLast? with
    | none => exact Text.isBoundary_zero t
    | some last =>
        have hplace : Bounds t last.start last.stop :=
          bounds_of_mem_imports (s := .of t) (List.mem_of_getLast? hlast)
        exact hplace.stop

namespace Checked

/-! ## A new specification -/

/-- The schemas that routes ask for, in order of first appearance. -/
def schemasOf (policy : Policy) (routes : List Route) : Except SpanFault (List Text) := do
  return (← filterMap (fun r => expectedSchema policy r.method r.normalPath) routes).foldl
    Repair.addOnce []

def operationLine (policy : Policy) (path method : Text) : Except SpanFault Text := do
  return "      ".toList ++ Spec.entry method (← renderOperation policy method path) ++ ",\n".toList

def pathLines (policy : Policy) (path : Text) (methods : List Text) : Except SpanFault Text := do
  return "    ".toList ++ Quoted.encode path ++ ": \x7b\n".toList ++
    (← flatMap (operationLine policy path) methods) ++ "    \x7d,\n".toList

/-- The declaration of a specification for some routes. -/
def specFor (policy : Policy) (routes : List Route) : Except SpanFault Text := do
  let paths ← flatMap (fun (path, methods) => pathLines policy path methods)
    (Repair.methodsByPath routes)
  let schemas ← schemasOf policy routes
  return "const ".toList ++ Repair.specName ++
    " = \x7b\n  openapi: '3.0.0',\n  info: \x7b title: 'API', version: '1.0.0' \x7d,\n  paths: \x7b\n".toList ++
    paths ++ "  \x7d,\n  components: \x7b\n    schemas: \x7b\n".toList ++
    schemas.flatMap Repair.schemaLine ++ "    \x7d,\n  \x7d,\n\x7d;".toList

/-- Declares a specification for the routes in code. -/
def synthesizeSpec (policy : Policy) (t : Text) : Except SpanFault (Option Text) := do
  let s := Source.of t
  let routes := Route.all s
  let found ← findSpec s
  if found.isSome || routes.isEmpty then return none
  else
    let spec ← specFor policy (routes.filter fun r => !policy.isInfraPath r.normalPath)
    match Repair.specOffset s with
    | 0 => return some (spec ++ "\n\n".toList ++ t)
    | n => return some (← insertAt t n ("\n\n".toList ++ spec))

theorem schemasOf_eq (policy : Policy) (routes : List Route) :
    schemasOf policy routes = .ok (Repair.schemasOf policy routes) := by
  rw [schemasOf, filterMap_eq fun _ _ => expectedSchema_eq _ _ _]
  rfl

theorem pathLines_eq (policy : Policy) (path : Text) (methods : List Text) :
    pathLines policy path methods = .ok (Repair.pathLines policy path methods) := by
  rw [pathLines, flatMap_eq fun method _ => by rw [operationLine, renderOperation_eq]; rfl]
  rfl

theorem specFor_eq (policy : Policy) (routes : List Route) :
    specFor policy routes = .ok (Repair.specFor policy routes) := by
  rw [specFor, flatMap_eq fun x _ => pathLines_eq policy x.1 x.2, ok_bind, schemasOf_eq]
  rfl

theorem synthesizeSpec_eq (policy : Policy) (t : Text) :
    synthesizeSpec policy t = .ok (Repair.synthesizeSpec policy t) := by
  simp only [synthesizeSpec, Repair.synthesizeSpec, findSpec_eq, ok_bind, specFor_eq]
  split_ifs
  · rfl
  · have hplace := isBoundary_specOffset t
    cases hoffset : Repair.specOffset (.of t) with
    | zero => rfl
    | succ n =>
        rw [hoffset] at hplace
        simp only [insertAt_eq hplace]
        rfl

end Checked

end ServiceGate

/-!
## Cuts in completing a specification

Every addition is made to a literal of the specification that was found in the text as it is then,
so the literal is placed and the entry is put in at a place.
-/

namespace ServiceGate

open Scan

variable {α β : Type} {t : Text} {spec : Spec} {o : ObjectLiteral} {policy : Policy}

theorem placed_of_specOf? (h : Spec.find? (.of t) = some spec) : Placed t spec.literal :=
  placed_of_find? (s := .of t) h

theorem placed_of_head? {p : SpecOperation → Bool} {op : SpecOperation}
    (h : ((spec.operations t).filter p).head? = some op) (ho : op.object = some o) : Placed t o :=
  placed_of_mem_operations (List.mem_filter.mp (List.mem_of_head? h)).1 ho

namespace Checked

def andThen (x : Except SpanFault (Option α)) (f : α → Except SpanFault (Option β)) :
    Except SpanFault (Option β) := do
  match ← x with
  | none => return none
  | some a => f a

theorem andThen_eq {x : Except SpanFault (Option α)} {f : α → Except SpanFault (Option β)}
    {value : Option α} {g : α → Option β} (hx : x = .ok value)
    (hf : ∀ a, value = some a → f a = .ok (g a)) : andThen x f = .ok (value.bind g) := by
  rw [andThen, hx, ok_bind]
  cases value with
  | none => rfl
  | some a => exact hf a rfl

/-! ## Containers -/

def ensurePaths (t : Text) : Except SpanFault (Option Text) :=
  andThen (findSpec (.of t)) fun spec => do
    if spec.literal.hasKey "paths".toList then return some t
    else return some (← insertEntry t spec.literal "paths: \x7b\x7d".toList)

/-- The text with `components.schemas` in its specification. -/
def ensureSchemas (t : Text) : Except SpanFault (Option Text) :=
  andThen (findSpec (.of t)) fun spec =>
    match spec.literal.get? "components".toList with
    | none => do
      return some (← insertEntry t spec.literal "components: \x7b schemas: \x7b\x7d \x7d".toList)
    | some entry => andThen (readValue entry t) fun components => do
      if components.hasKey "schemas".toList then return some t
      else return some (← insertEntry t components "schemas: \x7b\x7d".toList)

theorem ensurePaths_eq (t : Text) : ensurePaths t = .ok (Repair.ensurePaths t) := by
  rw [Repair.ensurePaths, Option.map_eq_bind]
  refine andThen_eq (findSpec_eq _) fun spec hspec => ?_
  simp only [insertEntry_eq (placed_of_specOf? hspec), Function.comp]
  split_ifs <;> rfl

theorem ensureSchemas_eq (t : Text) : ensureSchemas t = .ok (Repair.ensureSchemas t) := by
  refine andThen_eq (findSpec_eq _) fun spec hspec => ?_
  cases spec.literal.get? "components".toList with
  | none =>
      simp only [insertEntry_eq (placed_of_specOf? hspec)]
      rfl
  | some entry =>
      refine andThen_eq (readValue_eq entry t) fun components hcomponents => ?_
      simp only [insertEntry_eq (placed_of_object? hcomponents)]
      split_ifs <;> rfl

/-! ## Operations -/

/-- Declares an operation; the answer tells whether anything was written. -/
def declareOperation (policy : Policy) (method path : Text) (t : Text) :
    Except SpanFault (Option (Text × Bool)) :=
  andThen (findSpec (.of t)) fun spec => andThen (paths spec t) fun paths => do
    let operation ← renderOperation policy method path
    match paths.entries.find? fun e => RoutePath.normalize e.key == path with
    | none =>
      let item := Spec.braced [Spec.entry method operation]
      return some (← insertEntry t paths (Spec.entry (Quoted.encode path) item), true)
    | some entry =>
      match ← readValue entry t with
      | none => return some (t, false)
      | some item => return some (← insertEntry t item (Spec.entry method operation), true)

/-- Declares the operations of several keys; the answer tells whether anything was written. -/
def declareOperations (policy : Policy) : List Text → Text → Except SpanFault (Option (Text × Bool))
  | [], t => return some (t, false)
  | key :: rest, t =>
    match Text.splitOnce? key ':' with
    | none => declareOperations policy rest t
    | some (method, path) =>
      andThen (declareOperation policy method path t) fun (out, written) =>
        andThen (declareOperations policy rest out) fun (last, more) =>
          return some (last, written || more)

/-- Declares every route that the specification lacks. -/
def injectDrift (policy : Policy) (t : Text) : Except SpanFault (Option Text) :=
  andThen (ensurePaths t) fun t => andThen (findSpec (.of t)) fun spec => do
    let missing ← driftKeys spec (.of t) policy
    andThen (declareOperations policy missing t) fun (out, written) =>
      return if written then some out else none

theorem declareOperation_eq (policy : Policy) (method path t : Text) :
    declareOperation policy method path t = .ok (Repair.declareOperation policy method path t) := by
  refine andThen_eq (findSpec_eq _) fun spec hspec =>
    andThen_eq (paths_eq spec t) fun paths hpaths => ?_
  simp only [renderOperation_eq, ok_bind, insertEntry_eq (placed_of_paths? hpaths), readValue_eq]
  cases paths.entries.find? fun e => RoutePath.normalize e.key == path with
  | none => rfl
  | some entry =>
      simp only
      cases hitem : entry.object? t with
      | none => rfl
      | some item =>
          simp only [insertEntry_eq (placed_of_object? hitem)]
          rfl

theorem declareOperations_eq (policy : Policy) : ∀ (keys : List Text) (t : Text),
    declareOperations policy keys t = .ok (Repair.declareOperations policy keys t)
  | [], _ => rfl
  | key :: rest, t => by
      rw [declareOperations, Repair.declareOperations]
      cases Text.splitOnce? key ':' with
      | none => exact declareOperations_eq policy rest t
      | some operation =>
          refine andThen_eq (declareOperation_eq policy _ _ t) fun first _ => ?_
          exact andThen_eq (declareOperations_eq policy rest _) fun last _ => rfl

theorem injectDrift_eq (policy : Policy) (t : Text) :
    injectDrift policy t = .ok (Repair.injectDrift policy t) := by
  refine andThen_eq (ensurePaths_eq t) fun t _ => andThen_eq (findSpec_eq _) fun spec _ => ?_
  rw [driftKeys_eq, ok_bind]
  refine andThen_eq (declareOperations_eq policy _ t) fun (out, written) _ => ?_
  cases written <;> rfl

/-! ## Request bodies and responses -/

/-- Gives request bodies to operations that lack one, at most `rounds` of them. -/
def completeRequestBodies (policy : Policy) : (rounds : Nat) → Text → Except SpanFault (Option Text)
  | 0, t => return some t
  | rounds + 1, t => andThen (findSpec (.of t)) fun spec => do
    match (← withoutRequestBody spec t policy).head? with
    | none => return some t
    | some operation =>
      let schema ← expectedSchema policy operation.method operation.path
      match operation.object, schema with
      | some object, some schema =>
        completeRequestBodies policy rounds (← insertEntry t object
          (Spec.entry "requestBody".toList (Spec.renderRequestBody schema)))
      | _, _ => return some t

/-- Gives every operation the request body that it lacks. -/
def injectRequestBodies (policy : Policy) (t : Text) : Except SpanFault (Option Text) :=
  andThen (findSpec (.of t)) fun spec => do
    match (← withoutRequestBody spec t policy).length with
    | 0 => return none
    | rounds => completeRequestBodies policy rounds t

/-- Puts responses into an operation, in the place of an empty object of them. -/
def writeResponses (t : Text) (object : ObjectLiteral) (responses : Text) : Except SpanFault Text :=
  do
  match ← valueAt object t "responses".toList with
  | some old => splice t old.openAt (old.closeAt + 1) responses
  | none => insertEntry t object (Spec.entry "responses".toList responses)

/-- Gives responses to operations that lack them, at most `rounds` of them. -/
def completeResponses (policy : Policy) : (rounds : Nat) → Text → Except SpanFault (Option Text)
  | 0, t => return some t
  | rounds + 1, t => andThen (findSpec (.of t)) fun spec => do
    match (← withoutResponses spec t).head? with
    | none => return some t
    | some operation =>
      match operation.object with
      | none => return some t
      | some object =>
        completeResponses policy rounds (← writeResponses t object
          (Spec.renderResponses policy operation.method operation.path))

/-- Gives every operation the responses that it lacks. -/
def injectResponses (policy : Policy) (t : Text) : Except SpanFault (Option Text) :=
  andThen (findSpec (.of t)) fun spec => do
    match (← withoutResponses spec t).length with
    | 0 => return none
    | rounds => completeResponses policy rounds t

theorem completeRequestBodies_eq (policy : Policy) : ∀ (rounds : Nat) (t : Text),
    completeRequestBodies policy rounds t = .ok (Repair.completeRequestBodies policy rounds t)
  | 0, _ => rfl
  | rounds + 1, t => by
      refine andThen_eq (findSpec_eq _) fun spec _ => ?_
      rw [withoutRequestBody_eq, ok_bind]
      cases hhead : (spec.withoutRequestBody t policy).head? with
      | none => rfl
      | some operation =>
          simp only [expectedSchema_eq, ok_bind]
          cases hobject : operation.object with
          | none => rfl
          | some object =>
              cases Spec.expectedSchema? policy operation.method operation.path with
              | none => rfl
              | some schema =>
                  simp only [insertEntry_eq (placed_of_head? hhead hobject), ok_bind]
                  exact completeRequestBodies_eq policy rounds _

theorem injectRequestBodies_eq (policy : Policy) (t : Text) :
    injectRequestBodies policy t = .ok (Repair.injectRequestBodies policy t) := by
  refine andThen_eq (findSpec_eq _) fun spec _ => ?_
  rw [withoutRequestBody_eq, ok_bind]
  cases (spec.withoutRequestBody t policy).length with
  | zero => rfl
  | succ rounds => exact completeRequestBodies_eq policy _ t

theorem writeResponses_eq (h : Placed t o) (responses : Text) :
    writeResponses t o responses = .ok (Repair.writeResponses t o responses) := by
  rw [writeResponses, valueAt_eq, ok_bind, Repair.writeResponses]
  cases hold : (o.get? "responses".toList).bind (·.object? t) with
  | none => exact insertEntry_eq h _
  | some old =>
      obtain ⟨entry, -, hentry⟩ := Option.bind_eq_some_iff.mp hold
      have hplaced := placed_of_object? hentry
      exact splice_eq hplaced.openAt hplaced.behind responses

theorem completeResponses_eq (policy : Policy) : ∀ (rounds : Nat) (t : Text),
    completeResponses policy rounds t = .ok (Repair.completeResponses policy rounds t)
  | 0, _ => rfl
  | rounds + 1, t => by
      refine andThen_eq (findSpec_eq _) fun spec _ => ?_
      rw [withoutResponses_eq, ok_bind]
      cases hhead : (spec.withoutResponses t).head? with
      | none => rfl
      | some operation =>
          simp only
          cases hobject : operation.object with
          | none => rfl
          | some object =>
              simp only [writeResponses_eq (placed_of_head? hhead hobject), ok_bind]
              exact completeResponses_eq policy rounds _

theorem injectResponses_eq (policy : Policy) (t : Text) :
    injectResponses policy t = .ok (Repair.injectResponses policy t) := by
  refine andThen_eq (findSpec_eq _) fun spec _ => ?_
  rw [withoutResponses_eq, ok_bind]
  cases (spec.withoutResponses t).length with
  | zero => rfl
  | succ rounds => exact completeResponses_eq policy _ t

/-! ## Schemas -/

def declareSchema (t name : Text) : Except SpanFault (Option Text) :=
  andThen (findSpec (.of t)) fun spec => andThen (schemas spec t) fun schemas => do
    return some (← insertEntry t schemas (Spec.entry name "\x7b type: 'object' \x7d".toList))

def declareSchemas : List Text → Text → Except SpanFault (Option Text)
  | [], t => return some t
  | name :: rest, t => andThen (declareSchema t name) (declareSchemas rest)

def injectSchemas (policy : Policy) (t : Text) : Except SpanFault (Option Text) :=
  andThen (ensureSchemas t) fun t => andThen (findSpec (.of t)) fun spec => do
    match ← missingSchemas spec (.of t) policy with
    | [] => return none
    | names => declareSchemas names t

theorem declareSchema_eq (t name : Text) :
    declareSchema t name = .ok (Repair.declareSchema t name) := by
  refine andThen_eq (findSpec_eq _) fun spec _ =>
    andThen_eq (schemas_eq spec t) fun schemas hschemas => ?_
  rw [insertEntry_eq (placed_of_schemas? hschemas)]
  rfl

theorem declareSchemas_eq : ∀ (names : List Text) (t : Text),
    declareSchemas names t = .ok (names.foldlM Repair.declareSchema t)
  | [], _ => rfl
  | name :: rest, t => by
      rw [List.foldlM_cons]
      exact andThen_eq (declareSchema_eq t name) fun out _ => declareSchemas_eq rest out

theorem injectSchemas_eq (policy : Policy) (t : Text) :
    injectSchemas policy t = .ok (Repair.injectSchemas policy t) := by
  refine andThen_eq (ensureSchemas_eq t) fun t _ => andThen_eq (findSpec_eq _) fun spec _ => ?_
  rw [missingSchemas_eq, ok_bind]
  cases spec.missingSchemas (.of t) policy with
  | nil => rfl
  | cons name names => exact declareSchemas_eq _ t

end Checked

end ServiceGate
