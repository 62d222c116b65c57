/-
# The completion loops finish

A round of a completion takes the first operation that lacks something and gives it another literal.
So that operation lacks it no longer, the others are as they were (`Completes`), and as many rounds
as there are such operations leave none (`Rounds.exists_completed`).  Schemas are declared one
behind the other, and the names that are declared stay (`exists_declareSchemas`).

The number of rounds is fixed before the first one, as the number of operations that lack something
in the text as it is.  That it is enough needs two facts about a round: it shortens the list of what
is lacked by its head (`Completes.lacking`), and the text that it leaves can be read in the same way
as the one it was given (`Completable`).  `Rounds` states both of a completion without saying what
is completed, and `Rounds.finishes` draws the conclusion once for request bodies and responses.

Schemas are no rounds, since the names are listed once and then declared in turn.  There each
declaration is looked at for what it adds to the names.

`finishes_of_undivided` puts the three together; `not_always_finished` shows why no template region
may divide a literal.
-/
import ServiceGate.Proofs.Balanced.Written
import ServiceGate.Proofs.Repair.Inserted
import ServiceGate.Proofs.Repair.Synthesis
import ServiceGate.Proofs.Spec.Located
import ServiceGate.Proofs.Spec.Outline

namespace ServiceGate

open Scan ObjectLiteral OperationSource

variable {t u v w name : Text} {place : Nat} {policy : Policy} {spec : Spec} {op : SpecOperation}
  {object : ObjectLiteral} {ops ops' : List SpecOperation} {lacks : OperationSource → Bool}

/-! ## One round -/

/-- A specification is read piece by piece down to its operations. -/
structure Completable (v : Text) : Prop extends Outlined v where
  operations : ∀ s ∈ all v, ∀ object ∈ s.object, Composed object

theorem Completable.composed {n : Nat} (h : Completable (spec.literal.source t))
    (hread : readAt? t n = some spec.literal) (hop : op ∈ spec.operations t)
    (hobject : op.object = some object) :
    Composed (object.source t) := by
  refine h.operations (op.source t) ?_ _ ?_
  · rw [← Spec.map_source_operations hread]
    exact List.mem_map_of_mem hop
  · rw [SpecOperation.source, hobject]
    rfl

/-- The first operation that lacks something is completed, and nothing else. -/
structure Completes (lacks : OperationSource → Bool) (u v : Text) : Prop where
  completable : Completable v
  keys : (all v).map (·.key) = (all u).map (·.key)
  lacking : ∃ s, (all u).filter lacks = s :: (all v).filter lacks

namespace Repair

open Spec

/-- A literal that lacks nothing in the place of the first operation that does. -/
theorem exists_round (h : Located t spec) (hv : Completable (spec.literal.source t))
    (hops : spec.operations t = ops ++ op :: ops')
    (hnone : ∀ op' ∈ ops, lacks (op'.source t) = false) (hlacks : lacks (op.source t) = true)
    (hobject : op.object = some object) (hw : Composed w)
    (hdone : lacks ⟨op.path, op.method, some w⟩ = false) :
    ∃ v, LocatedAs (object.replaced t w) spec.name spec.declaredAt v ∧
      Completes lacks (spec.literal.source t) v := by
  obtain ⟨n, hread⟩ := h.exists_readAt?
  obtain ⟨v, hreplaced, houtlined, hnames, hall⟩ :=
    exists_operation hread hv.toOutlined hops hobject hw.braced
  have hold : all (spec.literal.source t) = ops.map (·.source t) ++ op.source t ::
      ops'.map (·.source t) := by
    rw [← map_source_operations hread, hops, List.map_append, List.map_cons]
  refine ⟨v, ?_, ⟨houtlined, fun s hs inner hinner => ?_⟩, ?_, op.source t, ?_⟩
  · rw [hreplaced]
    exact h.replaced_of_names houtlined.whole fun key hkey => hnames ▸ hkey
  · rw [hall, List.mem_append, List.mem_cons] at hs
    rcases hs with hs | rfl | hs
    · exact hv.operations s (hold ▸ List.mem_append_left _ hs) inner hinner
    · exact Option.some.inj hinner ▸ hw
    · exact hv.operations s (hold ▸ List.mem_append_right _ (List.mem_cons_of_mem _ hs)) inner
        hinner
  · rw [hall, hold]
    simp [OperationSource.key, SpecOperation.source]
  · have hfront : (ops.map (·.source t)).filter lacks = [] := by
      rw [List.filter_eq_nil_iff]
      intro s hs
      obtain ⟨op', hop', rfl⟩ := List.mem_map.mp hs
      rw [hnone op' hop']
      exact Bool.false_ne_true
    rw [hall, hold, List.filter_append, List.filter_append, hfront, List.filter_cons_of_pos hlacks,
      List.filter_cons_of_neg (by rw [hdone]; exact Bool.false_ne_true)]
    rfl

/-- The first operation that lacks something, with what is in front of it. -/
theorem exists_first {f : SpecOperation → Bool} (h : ((spec.operations t).filter f).head? = some op)
    (hf : ∀ op ∈ spec.operations t, f op = lacks (op.source t)) :
    ∃ ops ops', spec.operations t = ops ++ op :: ops' ∧
    (∀ op' ∈ ops, lacks (op'.source t) = false) ∧
      lacks (op.source t) = true := by
  rw [List.head?_filter] at h
  obtain ⟨hop, ops, ops', hops, hnone⟩ := List.find?_eq_some_iff_append.mp h
  have hmem : ∀ op' ∈ ops, op' ∈ spec.operations t := fun op' hop' =>
    hops ▸ List.mem_append_left _ hop'
  refine ⟨ops, ops', hops, fun op' hop' => ?_, ?_⟩
  · rw [← hf op' (hmem op' hop')]
    exact Bool.not_eq_true' _ ▸ hnone op' hop'
  · rw [← hf op (hops ▸ List.mem_append_right _ List.mem_cons_self), hop]

theorem map_source_filter {n : Nat} {f : SpecOperation → Bool}
    (hread : readAt? t n = some spec.literal)
    (hf : ∀ op ∈ spec.operations t, f op = lacks (op.source t)) :
    ((spec.operations t).filter f).map (·.source t) =
    (all (spec.literal.source t)).filter lacks := by
  rw [← map_source_operations hread, List.filter_map, List.filter_congr hf]
  rfl

/-- Nothing is lacked, and the operations are the same. -/
structure Completed (lacks : OperationSource → Bool) (u v : Text) : Prop where
  keys : (all v).map (·.key) = (all u).map (·.key)
  none : (all v).filter lacks = []

/-- A completion by rounds, each of which completes the first operation that lacks something. -/
structure Rounds (f : Text → SpecOperation → Bool) (lacks : OperationSource → Bool)
    (complete : Nat → Text → Option Text) : Prop where
  told : ∀ {t : Text} {spec : Spec}, ∀ op ∈ spec.operations t, f t op = lacks (op.source t)
  zero : ∀ t, complete 0 t = some t
  succ : ∀ (rounds : Nat) {t : Text} {spec : Spec} {op : SpecOperation}, Located t spec →
    Completable (spec.literal.source t) → ((spec.operations t).filter (f t)).head? = some op →
      ∃ next v, complete (rounds + 1) t = complete rounds next ∧
      LocatedAs next spec.name spec.declaredAt v ∧
        Completes lacks (spec.literal.source t) v

variable {f : Text → SpecOperation → Bool} {complete : Nat → Text → Option Text}

/-- As many rounds as there are operations that lack something leave none. -/
theorem Rounds.exists_completed (h : Rounds f lacks complete) : ∀ (rounds : Nat) {t u : Text},
    LocatedAs t name place u → Completable u → ((all u).filter lacks).length = rounds →
      ∃ out v, complete rounds t = some out ∧ LocatedAs out name place v ∧ Completed lacks u v
  | 0, t, u, hu, _, hrounds => ⟨t, u, h.zero t, hu, rfl, List.length_eq_zero_iff.mp hrounds⟩
  | rounds + 1, t, _, ⟨o, ho, rfl⟩, hv, hrounds => by
      obtain ⟨n, hread⟩ := ho.exists_readAt?
      obtain ⟨op, rest, hops⟩ : ∃ op rest, (Spec.operations ⟨name, place, o⟩ t).filter (f t) = op ::
          rest := by
        refine List.exists_cons_of_length_eq_add_one (n := rounds) ?_
        rw [← List.length_map, map_source_filter hread h.told, hrounds]
      obtain ⟨next, v, hnext, hlocated, hround⟩ := h.succ rounds ho hv (congrArg List.head? hops)
      obtain ⟨s, hlacking⟩ := hround.lacking
      obtain ⟨out, v', hout, hlocated', hcompleted⟩ :=
        h.exists_completed rounds hlocated hround.completable
        (Nat.succ.inj ((congrArg List.length hlacking).symm.trans hrounds))
      exact ⟨out, v', hnext.trans hout, hlocated', hcompleted.keys.trans hround.keys,
        hcompleted.none⟩

/-- Something is written exactly if something is missing.  Then the specification is found again
under the same name at the same place with the same operations, and nothing is missing. -/
def Finishes (t : Text) (spec : Spec) (missing : Spec → Text → List SpecOperation)
    (result : Option Text) : Prop :=
  (result.isSome ↔ missing spec t ≠ []) ∧ ∀ out ∈ result, ∃ spec', find? (.of out) = some spec' ∧
    spec'.name = spec.name ∧ spec'.declaredAt = spec.declaredAt ∧
    spec'.operationKeys out = spec.operationKeys t ∧ missing spec' out = []

theorem Rounds.finishes (h : Rounds f lacks complete) (hspec : Located t spec)
    (hv : Completable (spec.literal.source t)) :
    Finishes t spec (fun spec t => (spec.operations t).filter (f t))
      (match ((spec.operations t).filter (f t)).length with
      | 0 => none
      | rounds => complete rounds t) := by
  obtain ⟨n, hread⟩ := hspec.exists_readAt?
  cases hmissing : (spec.operations t).filter (f t) with
  | nil => exact ⟨⟨fun h => (Bool.false_ne_true h).elim, fun h => absurd hmissing h⟩,
      fun out hout => by cases hout⟩
  | cons op rest =>
      have hlength : ((all (spec.literal.source t)).filter lacks).length = rest.length + 1 := by
        rw [← map_source_filter hread h.told, hmissing, List.length_map, List.length_cons]
      obtain ⟨out, v, hout, ⟨o, hlocated, rfl⟩, hcompleted⟩ :=
        h.exists_completed _ ⟨spec.literal, hspec, rfl⟩ hv hlength
      obtain ⟨m, hreadOut⟩ := hlocated.exists_readAt?
      rw [List.length_cons]
      change Finishes t spec _ (complete (rest.length + 1) t)
      rw [hout]
      refine ⟨⟨fun _ hnil => List.cons_ne_nil _ _ (hmissing.symm.trans hnil), fun _ => rfl⟩,
        fun out' hout' => ?_⟩
      obtain rfl := Option.some.inj hout'
      refine ⟨_, hlocated.found, rfl, rfl, ?_, ?_⟩
      · rw [operationKeys_source hreadOut, operationKeys_source hread]
        exact hcompleted.keys
      · exact List.map_eq_nil_iff.mp ((map_source_filter hreadOut h.told).trans hcompleted.none)

/-! ## Request bodies -/

theorem isKeyName_requestBody : IsKeyName "requestBody".toList := ⟨by decide, by decide⟩

theorem lacksRequestBody_of_hasField {path method : Text}
    (h : hasField w "requestBody".toList = true) :
    OperationSource.lacksRequestBody policy ⟨path, method, some w⟩ = false := by
  rw [OperationSource.lacksRequestBody, Option.any_some, h]
  simp

/-- A round for a request body. -/
theorem exists_requestBody (h : Located t spec) (hv : Completable (spec.literal.source t))
    (hop : (spec.withoutRequestBody t policy).head? = some op) : ∃ object schema v,
    op.object = some object ∧
      Spec.expectedSchema? policy op.method op.path = some schema ∧
      LocatedAs
      (object.insertEntry t (Spec.entry "requestBody".toList (Spec.renderRequestBody schema)))
      spec.name
        spec.declaredAt v ∧
      Completes (OperationSource.lacksRequestBody policy) (spec.literal.source t) v := by
  obtain ⟨ops, ops', hops, hnone, hlacks⟩ := exists_first hop fun op hop =>
    lacksRequestBody_source hop
  have hmem : op ∈ spec.operations t := hops ▸ List.mem_append_right _ List.mem_cons_self
  obtain ⟨n, hread⟩ := h.exists_readAt?
  have hneeds : Spec.lacksRequestBody policy op = true :=
    (lacksRequestBody_source hmem).trans hlacks
  rw [Spec.lacksRequestBody, Bool.and_eq_true, Bool.and_eq_true] at hneeds
  obtain ⟨schema, hschema⟩ := Option.isSome_iff_exists.mp hneeds.1.2
  obtain ⟨object, hobject, -⟩ := (Option.any_eq_true _ _).mp hneeds.2
  obtain ⟨m, hreadObject⟩ := exists_readAt?_of_mem_operations hmem hobject
  obtain ⟨w, hinsert, hw, hfield, -⟩ := exists_inserted hreadObject (hv.composed hread hmem hobject)
    (Key.name isKeyName_requestBody) (braced_renderRequestBody (isBare_of_expectedSchema? hschema))
  obtain ⟨v, hlocated, hcompletes⟩ := exists_round h hv hops hnone hlacks hobject hw
    (lacksRequestBody_of_hasField hfield)
  exact ⟨object, schema, v, hobject, hschema, hinsert ▸ hlocated, hcompletes⟩

theorem rounds_requestBodies (policy : Policy) : Rounds (fun _ => Spec.lacksRequestBody policy)
    (OperationSource.lacksRequestBody policy) (completeRequestBodies policy) where
  told _ hop := lacksRequestBody_source hop
  zero _ := rfl
  succ rounds t spec op h hv hop := by
    change (spec.withoutRequestBody t policy).head? = some op at hop
    obtain ⟨object, schema, v, hobject, hschema, hlocated, hround⟩ := exists_requestBody h hv hop
    refine ⟨_, v, ?_, hlocated, hround⟩
    rw [completeRequestBodies, specOf?, h.found]
    simp only [Option.bind_eq_bind, Option.bind_some, hop, hobject, hschema]

/-! ## Responses -/

theorem isKeyName_responses : IsKeyName "responses".toList := ⟨by decide, by decide⟩

theorem fields_renderResponses {method path : Text} :
    fields (Spec.renderResponses policy method path) ≠ [] := by
  have hobject := isObject_braced (responseEntries policy method path) responseEntries_ne_nil
  rw [← renderResponses_eq] at hobject
  obtain ⟨o, hread, hentries⟩ := hobject.readAt? (p := []) (q := []) (List.append_nil _).symm
  rw [List.nil_append] at hread
  rw [fields_of_readAt? hread]
  intro hnil
  have hlength := hentries.length_eq
  rw [List.map_eq_nil_iff.mp hnil, List.length_map] at hlength
  exact responseEntries_ne_nil (List.length_eq_zero_iff.mp hlength.symm)

theorem lacksResponses_of_value? {path method r : Text} (h : value? w "responses".toList = some r)
    (hr : fields r ≠ []) : OperationSource.lacksResponses ⟨path, method, some w⟩ = false := by
  obtain ⟨f, hf, hvalue⟩ := Option.bind_eq_some_iff.mp h
  rw [OperationSource.lacksResponses, Option.any_some, hf]
  simp [hvalue, hr]

theorem exists_written {n : Nat} {r : Text} (hread : readAt? t n = some object)
    (hv : Composed (object.source t)) (hnone : object.hasKey "responses".toList = true →
      ((object.get? "responses".toList).bind (·.object? t)).isSome)
    (hr : Braced r) : ∃ w, writeResponses t object r = object.replaced t w ∧ Composed w ∧
      value? w "responses".toList = some r := by
  rw [writeResponses]
  cases hold : (object.get? "responses".toList).bind (·.object? t) with
  | none =>
      have hfield : hasField (object.source t) "responses".toList = false := by
        rw [hasField_source hread]
        by_contra hkey
        have hsome := hnone (Bool.not_eq_false _ ▸ hkey)
        rw [hold] at hsome
        cases hsome
      obtain ⟨w, hinsert, hw, -, hvalue⟩ :=
        exists_inserted hread hv (Key.name isKeyName_responses) hr
      exact ⟨w, hinsert, hw, hvalue hfield⟩
  | some old =>
      obtain ⟨e, he, hinner⟩ := Option.bind_eq_some_iff.mp hold
      obtain ⟨w, hreplaced, hexchanged⟩ := exists_exchanged_value hread hv he hinner hr
      exact ⟨w, hreplaced, hexchanged.composed, hexchanged.value⟩

/-- A round for responses. -/
theorem exists_responses (policy : Policy) (h : Located t spec)
    (hv : Completable (spec.literal.source t)) (hop : (spec.withoutResponses t).head? = some op) :
    ∃ object v, op.object = some object ∧
      LocatedAs (writeResponses t object (Spec.renderResponses policy op.method op.path)) spec.name
        spec.declaredAt v ∧
      Completes OperationSource.lacksResponses (spec.literal.source t) v := by
  obtain ⟨ops, ops', hops, hnone, hlacks⟩ := exists_first hop fun op hop =>
    lacksResponses_source hop
  have hmem : op ∈ spec.operations t := hops ▸ List.mem_append_right _ List.mem_cons_self
  obtain ⟨n, hread⟩ := h.exists_readAt?
  have hneeds := lacksResponses_source hmem ▸ hlacks
  rw [Spec.lacksResponses] at hneeds
  cases hobject : op.object with
  | none =>
      rw [hobject] at hneeds
      cases hneeds
  | some object =>
      obtain ⟨m, hreadObject⟩ := exists_readAt?_of_mem_operations hmem hobject
      rw [hobject] at hneeds
      have hresponses : object.hasKey "responses".toList = true →
          ((object.get? "responses".toList).bind (·.object? t)).isSome := fun hkey => by
        obtain ⟨e, he⟩ := Option.isSome_iff_exists.mp hkey
        simp only [he] at hneeds
        obtain ⟨old, hold, -⟩ := (Option.any_eq_true _ _).mp hneeds
        rw [he, Option.bind_some, hold]
        rfl
      have hrendered : Braced (Spec.renderResponses policy op.method op.path) :=
        braced_renderResponses
      obtain ⟨w, hwritten, hw, hvalue⟩ :=
        exists_written hreadObject (hv.composed hread hmem hobject)
        hresponses hrendered
      obtain ⟨v, hlocated, hcompletes⟩ := exists_round h hv hops hnone hlacks hobject hw
        (lacksResponses_of_value? hvalue fields_renderResponses)
      exact ⟨object, v, rfl, hwritten ▸ hlocated, hcompletes⟩

theorem rounds_responses (policy : Policy) :
    Rounds Spec.lacksResponses OperationSource.lacksResponses
    (completeResponses policy) where
  told _ hop := lacksResponses_source hop
  zero _ := rfl
  succ rounds t spec op h hv hop := by
    change (spec.withoutResponses t).head? = some op at hop
    obtain ⟨object, v, hobject, hlocated, hround⟩ := exists_responses policy h hv hop
    refine ⟨_, v, ?_, hlocated, hround⟩
    rw [completeResponses, specOf?, h.found]
    simp only [Option.bind_eq_bind, Option.bind_some, hop, hobject]

end Repair

/-! ## Schemas -/

def Spec.components? (spec : Spec) (t : Text) : Option ObjectLiteral :=
  (spec.literal.get? "components".toList).bind (·.object? t)

/-- There is a literal with schemas, and it is read piece by piece. -/
structure Schemed (v s : Text) : Prop where
  whole : Composed v
  components : ∃ c, value? v "components".toList = some c ∧ Composed c ∧
    value? c "schemas".toList = some s
  schemas : Composed s

namespace Repair

open Spec

theorem exists_schemas (h : Located t spec) (hs : Schemed (spec.literal.source t) u)
    (hw : Composed w) :
    ∃ schemas n v, spec.schemas? t = some schemas ∧ readAt? t n = some schemas ∧
    schemas.source t = u ∧
      LocatedAs (schemas.replaced t w) spec.name spec.declaredAt v ∧ Schemed v w := by
  obtain ⟨n, hread⟩ := h.exists_readAt?
  obtain ⟨c, hc, hcomposed, hu⟩ := hs.components
  obtain ⟨e, components, he, hcomponents, rfl⟩ := exists_of_value? hread hc
  obtain ⟨e', schemas, he', hschemas, rfl⟩ := exists_of_value? hcomponents hu
  obtain ⟨c', hinner, hexchanged⟩ :=
    exists_exchanged_value hcomponents hcomposed he' hschemas hw.braced
  obtain ⟨v, houter, hexchanged'⟩ :=
    exists_exchanged_value hread hs.whole he hcomponents hexchanged.composed.braced
  refine ⟨schemas, _, v, ?_, hschemas, rfl, ?_,
    ⟨hexchanged'.composed, ⟨c', hexchanged'.value, hexchanged.composed, hexchanged.value⟩, hw⟩⟩
  · rw [Spec.schemas?, he, Option.bind_some, hcomponents, Option.bind_some, he', Option.bind_some,
      hschemas]
  · rw [hinner, houter]
    exact h.replaced_of_names hexchanged'.composed fun key hkey => hexchanged'.names ▸ hkey

theorem braced_schemaObject : Braced "\x7b type: 'object' \x7d".toList :=
  @braced_of_closed ["type: 'object'".toList]
  (List.forall_mem_singleton.mpr (closed_of_isClosed (by decide)))

theorem exists_declareSchema (h : LocatedAs t name place u) (hu : Schemed u v) {schema : Text}
    (hschema : IsKeyName schema) : ∃ out u' v', declareSchema t schema = some out ∧
    LocatedAs out name place u' ∧
      Schemed u' v' ∧ Filled v' ∧ schema ∈ names v' ∧ (Filled v → ∀ k ∈ names v, k ∈ names v') := by
  obtain ⟨o, h, rfl⟩ := h
  obtain ⟨n, hread⟩ := h.exists_readAt?
  obtain ⟨schemas, m, -, hschemas, hreadSchemas, rfl, -⟩ := exists_schemas h hu composed_empty
  obtain ⟨w, hinsert, happended⟩ :=
    exists_appended hreadSchemas hu.schemas (Key.name hschema) braced_schemaObject
  have hw : Composed w := happended.elim (·.composed) (·.2.composed)
  obtain ⟨schemas', m', u', hschemas', -, -, hlocated, hschemed⟩ := exists_schemas h hu hw
  obtain rfl : schemas = schemas' := Option.some.inj (hschemas.symm.trans hschemas')
  refine ⟨schemas.replaced t w, u', w, ?_, hlocated, hschemed, ?_⟩
  · rw [declareSchema, specOf?, h.found]
    simp only [Option.bind_eq_bind, Option.bind_some, hschemas]
    exact congrArg some hinsert
  · rcases happended with happended | ⟨hblank, happended⟩
    · rw [happended.names]
      exact ⟨happended.filled, List.mem_append_right _ List.mem_cons_self,
        fun _ k hk => List.mem_append_left _ hk⟩
    · rw [happended.names]
      exact ⟨happended.filled, List.mem_append_right _ List.mem_cons_self, fun hfilled =>
        absurd hfilled hblank⟩

/-- Schemas that are declared one behind the other are all there. -/
theorem exists_declareSchemas : ∀ {schemas : List Text} {t u v : Text}, LocatedAs t name place u →
    Schemed u v →
    (∀ schema ∈ schemas, IsKeyName schema) → ∃ out u' v',
    schemas.foldlM declareSchema t = some out ∧
      LocatedAs out name place u' ∧ Schemed u' v' ∧ (∀ schema ∈ schemas, schema ∈ names v') ∧
      (Filled v → ∀ k ∈ names v, k ∈ names v')
  | [], t, u, v, h, hu, _ => ⟨t, u, v, rfl, h, hu, fun _ hmem => absurd hmem List.not_mem_nil,
      fun _ _ hk => hk⟩
  | schema :: schemas, t, u, v, h, hu, hschemas => by
      obtain ⟨hschema, hschemas⟩ := List.forall_mem_cons.mp hschemas
      obtain ⟨out, u', v', hout, hlocated, hschemed, hfilled, hmem, hkept⟩ :=
        exists_declareSchema h hu hschema
      obtain ⟨out', u'', v'', hout', hlocated', hschemed', hall, hkept'⟩ :=
        exists_declareSchemas hlocated hschemed hschemas
      refine ⟨out', u'', v'', ?_, hlocated', hschemed',
        List.forall_mem_cons.mpr ⟨hkept' hfilled _ hmem, hall⟩,
        fun hv k hk => hkept' hfilled k (hkept hv k hk)⟩
      rw [List.foldlM_cons, hout]
      exact hout'

/-- Schemas can be added to the specification: no template region divides `components` or the
schemas, and a place for them can be made without losing an entry or a route. -/
structure SchemasOpen (t : Text) (spec : Spec) : Prop where
  components : ∀ components ∈ spec.components? t, components.Undivided t
  schemas : ∀ schemas ∈ spec.schemas? t, schemas.Undivided t
  filled : spec.literal.hasKey "components".toList = false →
    ∀ last ∈ spec.literal.entries.getLast?, (behindValue? t last).isSome = true
  calls : ∀ start ∈ ensureSchemas t, calls start = calls t

instance (t : Text) (spec : Spec) : Decidable (SchemasOpen t spec) :=
  decidable_of_iff ((∀ components ∈ spec.components? t, components.Undivided t) ∧
      (∀ schemas ∈ spec.schemas? t, schemas.Undivided t) ∧
      (spec.literal.hasKey "components".toList = false →
        ∀ last ∈ spec.literal.entries.getLast?, (behindValue? t last).isSome = true) ∧
      ∀ start ∈ ensureSchemas t, calls start = calls t)
    ⟨fun h => ⟨h.1, h.2.1, h.2.2.1, h.2.2.2⟩, fun h => ⟨h.1, h.2, h.3, h.4⟩⟩

theorem isKeyName_components : IsKeyName "components".toList := ⟨by decide, by decide⟩

theorem isKeyName_schemas : IsKeyName "schemas".toList := ⟨by decide, by decide⟩

theorem names_empty : names "\x7b\x7d".toList = [] := by rw [names, fields_empty, List.map_nil]

theorem all_of_value? (h : value? v "paths".toList = value? u "paths".toList) : all v = all u := by
  rw [all, all, h]

theorem composed_schemas :
    Composed (Spec.braced [Spec.entry "schemas".toList "\x7b\x7d".toList]) ∧
      value? (Spec.braced [Spec.entry "schemas".toList "\x7b\x7d".toList]) "schemas".toList =
        some "\x7b\x7d".toList := by
  obtain ⟨hcomposed, hfields, -⟩ :=
    composed_braced (Key.name isKeyName_schemas) composed_empty.braced
  refine ⟨hcomposed, ?_⟩
  rw [value?, hfields]
  rfl

/-- Where there are no components they are put in, with an empty literal of schemas. -/
theorem exists_components (h : Located t spec) (hcomposed : Composed (spec.literal.source t))
    (hopen : SchemasOpen t spec) (hkey : spec.literal.hasKey "components".toList = false) :
    ∃ v, LocatedAs (spec.literal.insertEntry t (Spec.entry "components".toList (Spec.braced
          [Spec.entry "schemas".toList "\x7b\x7d".toList]))) spec.name spec.declaredAt v ∧
      all v = all (spec.literal.source t) ∧ Schemed v "\x7b\x7d".toList := by
  obtain ⟨n, hread⟩ := h.exists_readAt?
  obtain ⟨hnew, hvalue⟩ := composed_schemas
  have hfilled := (filled_source hread).mpr (hopen.filled hkey)
  obtain ⟨v, hinsert, happended⟩ :=
    exists_appended hread hcomposed (Key.name isKeyName_components) hnew.braced
  replace happended := happended.resolve_right fun hblank => hblank.1 hfilled
  refine ⟨v, ?_, all_of_value? (happended.others (by decide)), happended.composed,
    ⟨_, happended.value ((hasField_source hread _).trans hkey), hnew, hvalue⟩, composed_empty⟩
  exact hinsert ▸ h.replaced_of_names happended.composed fun key hkey =>
    happended.names ▸ List.mem_append_left _ hkey

/-- Where the components hold no schemas, an empty literal of schemas is put in there. -/
theorem exists_emptySchemas {e : ObjectEntry} {components : ObjectLiteral} (h : Located t spec)
    (hcomposed : Composed (spec.literal.source t))
    (he : spec.literal.get? "components".toList = some e) (hinner : e.object? t = some components)
    (hcomponents : Composed (components.source t))
    (hkey : components.hasKey "schemas".toList = false) :
    ∃ v, LocatedAs (components.insertEntry t (Spec.entry "schemas".toList "\x7b\x7d".toList))
        spec.name spec.declaredAt v ∧
      all v = all (spec.literal.source t) ∧ Schemed v "\x7b\x7d".toList := by
  obtain ⟨n, hread⟩ := h.exists_readAt?
  obtain ⟨c, hinsert, hc, -, hvalue⟩ :=
    exists_inserted hinner hcomponents (Key.name isKeyName_schemas) composed_empty.braced
  obtain ⟨v, hreplaced, hexchanged⟩ :=
    exists_exchanged_value hread hcomposed he hinner hc.braced
  have hnone := (hasField_source hinner "schemas".toList).trans hkey
  refine ⟨v, ?_, all_of_value? (hexchanged.others _ (by decide)), hexchanged.composed,
    ⟨c, hexchanged.value, hc, hvalue hnone⟩, composed_empty⟩
  exact hinsert ▸ hreplaced ▸ h.replaced_of_names hexchanged.composed fun key hkey =>
    hexchanged.names ▸ hkey

/-- A place for schemas can be made beside the operations. -/
theorem exists_ensureSchemas {start : Text} (h : Located t spec) (hw : spec.literal.Nested t)
    (hcut : spec.literal.Undivided t) (hopen : SchemasOpen t spec)
    (hstart : ensureSchemas t = some start) :
    ∃ v, LocatedAs start spec.name spec.declaredAt v ∧ all v = all (spec.literal.source t) ∧
      ((∃ s, Schemed v s ∧ ∀ k ∈ names s, k ∈ spec.schemaNames t) ∨ start = t ∧
        spec.schemas? t = none) := by
  obtain ⟨n, hread⟩ := h.exists_readAt?
  have hcomposed := hw.composed hread hcut
  have hnone : ∀ k ∈ names "\x7b\x7d".toList, k ∈ spec.schemaNames t := fun k hk =>
    absurd (names_empty ▸ hk) List.not_mem_nil
  rw [ensureSchemas, specOf?, h.found] at hstart
  simp only [Option.bind_eq_bind, Option.bind_some] at hstart
  cases he : spec.literal.get? "components".toList with
  | none =>
      have hkey : spec.literal.hasKey "components".toList = false := by rw [hasKey, he]; rfl
      obtain ⟨v, hlocated, hall, hschemed⟩ := exists_components h hcomposed hopen hkey
      simp only [he] at hstart
      rw [← Option.some.inj hstart]
      exact ⟨v, hlocated, hall, .inl ⟨_, hschemed, hnone⟩⟩
  | some e =>
      simp only [he] at hstart
      obtain ⟨components, hinner, hstart⟩ := Option.bind_eq_some_iff.mp hstart
      have hcomponents : spec.components? t = some components := by
        rw [Spec.components?, he, Option.bind_some, hinner]
      have hschemas : spec.schemas? t = (components.get? "schemas".toList).bind (·.object? t) := by
        rw [Spec.schemas?, he, Option.bind_some, hinner, Option.bind_some]
      have hnested := (hw.value hread hcut hcomponents).2
      have hcutInner := hopen.components components hcomponents
      have hcomposedInner := hnested.composed hinner hcutInner
      split_ifs at hstart with hkey
      · obtain rfl := Option.some.inj hstart
        refine ⟨_, ⟨spec.literal, h, rfl⟩, rfl, ?_⟩
        cases hfound : spec.schemas? t with
        | none => exact .inr ⟨rfl, rfl⟩
        | some schemas =>
            obtain ⟨⟨m, hreadSchemas⟩, hnestedSchemas⟩ :=
              hnested.value hinner hcutInner (hschemas ▸ hfound)
            refine .inl ⟨schemas.source t,
              ⟨hcomposed, ⟨components.source t, ?_, hcomposedInner, ?_⟩,
              hnestedSchemas.composed hreadSchemas (hopen.schemas schemas hfound)⟩, fun k hk => ?_⟩
            · rw [value?_source hread, show (spec.literal.get? _).bind _ = _ from hcomponents,
                Option.map_some]
            · rw [value?_source hinner, ← hschemas, hfound, Option.map_some]
            · rwa [Spec.schemaNames, hfound, Option.map_some, Option.getD_some,
                ← names_source hreadSchemas]
      · obtain ⟨v, hlocated, hall, hschemed⟩ := exists_emptySchemas h hcomposed he hinner
          hcomposedInner (Bool.not_eq_true _ ▸ hkey)
        rw [← Option.some.inj hstart]
        exact ⟨v, hlocated, hall, .inl ⟨_, hschemed, hnone⟩⟩

theorem mem_expectedSchemas {n : Nat} {schema : Text} (hread : readAt? t n = some spec.literal) :
    schema ∈ spec.expectedSchemas (.of t) policy ↔
      (∃ c ∈ calls t, Spec.expectedSchema? policy c.1 (RoutePath.normalize c.2) = some schema) ∨
        ∃ s ∈ all (spec.literal.source t), Spec.expectedSchema? policy s.method s.path =
        some schema := by
  rw [Spec.expectedSchemas, mem_sortedSet, List.mem_append, List.mem_filterMap, List.mem_filterMap,
    calls, ← map_source_operations hread]
  simp only [List.mem_map, exists_exists_and_eq_and]
  rfl

theorem schemaNames_of_schemed (h : Located t spec) (hs : Schemed (spec.literal.source t) u) :
    spec.schemaNames t = names u := by
  obtain ⟨schemas, n, -, hschemas, hread, rfl, -⟩ := exists_schemas h hs composed_empty
  rw [Spec.schemaNames, hschemas, Option.map_some, Option.getD_some, names_source hread]

theorem normalize_of_mem {s : OperationSource} (hs : s ∈ all v) :
    RoutePath.normalize s.path = s.path := by
  obtain ⟨p, -, hs⟩ : ∃ p, value? v "paths".toList = some p ∧ s ∈ ofPaths p := by
    rw [all] at hs
    cases hp : value? v "paths".toList with
    | none =>
        rw [hp] at hs
        cases hs
    | some p =>
        rw [hp] at hs
        exact ⟨p, rfl, hs⟩
  obtain ⟨f, -, hs⟩ := List.mem_flatMap.mp hs
  rw [ofPath] at hs
  split at hs
  · cases hs
  · obtain ⟨f', -, hs⟩ := List.mem_filterMap.mp hs
    rw [ofField?] at hs
    split_ifs at hs
    rw [← Option.some.inj hs]
    exact RoutePath.normalize_normalize _

theorem isKeyName_of_mem_expectedSchemas {n : Nat} {schema : Text}
    (hread : readAt? t n = some spec.literal) (hcalls : ∀ c ∈ calls t, IsAscii c.2)
    (hops : ∀ s ∈ all (spec.literal.source t), IsAscii s.path)
    (h : schema ∈ spec.expectedSchemas (.of t) policy) : IsKeyName schema := by
  rcases (mem_expectedSchemas hread).mp h with ⟨c, hc, hschema⟩ | ⟨s, hs, hschema⟩
  · exact Spec.isKeyName_of_expectedSchema? (hcalls c hc) hschema
  · rw [← normalize_of_mem hs] at hschema
    exact Spec.isKeyName_of_expectedSchema? (hops s hs) hschema

theorem declareSchema_none {schema : Text} (h : Located t spec) (hnone : spec.schemas? t = none) :
    declareSchema t schema = none := by
  rw [declareSchema, specOf?, h.found]
  simp only [Option.bind_eq_bind, Option.bind_some, hnone, Option.bind_none]

/-- What is missing is missing where a place for schemas has been made. -/
theorem missingSchemas_subset (policy : Policy) {start : Text} {spec' : Spec} {m n : Nat}
    (hread : readAt? t n = some spec.literal) (hread' : readAt? start m = some spec'.literal)
    (hcalls : calls start = calls t)
    (hall : all (spec'.literal.source start) = all (spec.literal.source t))
    (hnames : ∀ k ∈ spec'.schemaNames start, k ∈ spec.schemaNames t) :
    spec.missingSchemas (.of t) policy ⊆ spec'.missingSchemas (.of start) policy := by
  intro schema hschema
  obtain ⟨hexpected, hundeclared⟩ := List.mem_filter.mp hschema
  refine List.mem_filter.mpr ⟨?_, ?_⟩
  · rw [mem_expectedSchemas hread] at hexpected
    rw [mem_expectedSchemas hread', hcalls, hall]
    exact hexpected
  · rw [Bool.not_eq_true', List.any_eq_false] at hundeclared ⊢
    exact fun k hk => hundeclared k (hnames k hk)

/-- Every schema that was missing is declared. -/
theorem exists_injectSchemas {out : Text} (h : Located t spec) (hw : spec.literal.Nested t)
    (hcut : spec.literal.Undivided t) (hopen : SchemasOpen t spec)
    (hroutes : ∀ r ∈ Route.all (.of t), IsAscii r.path)
    (hops : ∀ op ∈ spec.operations t, IsAscii op.path)
    (hinject : injectSchemas policy t = some out) : ∃ spec', find? (.of out) = some spec' ∧
      spec'.name = spec.name ∧ spec'.declaredAt = spec.declaredAt ∧
      ∀ schema ∈ spec.missingSchemas (.of t) policy, schema ∈ spec'.schemaNames out := by
  obtain ⟨start, hstart, hout⟩ := Option.bind_eq_some_iff.mp hinject
  obtain ⟨n, hread⟩ := h.exists_readAt?
  obtain ⟨v, ⟨o, hlocated, rfl⟩, hall, hplace⟩ := exists_ensureSchemas h hw hcut hopen hstart
  obtain ⟨m, hreadStart⟩ := hlocated.exists_readAt?
  have hcalls := hopen.calls start hstart
  rw [specOf?, hlocated.found] at hout
  simp only [Option.bind_eq_bind, Option.bind_some] at hout
  rcases hplace with ⟨s, hs, hsubset⟩ | ⟨rfl, hnone⟩
  · have hnames := schemaNames_of_schemed hlocated hs
    have hmissing := missingSchemas_subset policy hread hreadStart hcalls hall (hnames ▸ hsubset)
    have hkeys : ∀ schema ∈ Spec.missingSchemas ⟨spec.name, spec.declaredAt, o⟩ (.of start) policy,
        IsKeyName schema := by
      refine fun schema hschema => isKeyName_of_mem_expectedSchemas hreadStart (hcalls ▸ fun c hc =>
        ?_)
        (hall ▸ fun s hs => ?_) (List.mem_filter.mp hschema).1
      · obtain ⟨r, hr, rfl⟩ := List.mem_map.mp hc
        exact hroutes r hr
      · rw [← map_source_operations hread] at hs
        obtain ⟨op, hop, rfl⟩ := List.mem_map.mp hs
        exact hops op hop
    obtain ⟨out', u, s', hout', ⟨o', hlocated', rfl⟩, hschemed, hdeclared, -⟩ :=
      exists_declareSchemas ⟨o, hlocated, rfl⟩ hs hkeys
    split at hout
    · cases hout
    · obtain rfl := Option.some.inj (hout.symm.trans hout')
      refine ⟨_, hlocated'.found, rfl, rfl, fun schema hschema => ?_⟩
      rw [schemaNames_of_schemed hlocated' hschemed]
      exact hdeclared schema (hmissing hschema)
  · -- no schema can be declared where the schemas are no literal
    rw [← Option.some.inj (h.found.symm.trans hlocated.found)] at hout
    cases hmissing : spec.missingSchemas (.of start) policy with
    | nil =>
        rw [hmissing] at hout
        cases hout
    | cons schema schemas =>
        simp only [hmissing, List.foldlM_cons, declareSchema_none h hnone] at hout
        cases hout

/-! ## What the completions leave -/

theorem finishes_requestBodies (h : Located t spec) (hv : Completable (spec.literal.source t)) :
    Finishes t spec (·.withoutRequestBody · policy) (injectRequestBodies policy t) := by
  rw [injectRequestBodies, specOf?, h.found]
  exact (rounds_requestBodies policy).finishes h hv

theorem finishes_responses (h : Located t spec) (hv : Completable (spec.literal.source t)) :
    Finishes t spec (·.withoutResponses ·) (injectResponses policy t) := by
  rw [injectResponses, specOf?, h.found]
  exact (rounds_responses policy).finishes h hv

theorem completable_of_undivided (h : Located t spec) (hw : spec.literal.Nested t)
    (hcut : spec.Undivided t) (hops : ∀ op ∈ spec.operations t, ∀ object ∈ op.object,
      object.Undivided t) :
    Completable (spec.literal.source t) := by
  obtain ⟨n, hread⟩ := h.exists_readAt?
  refine ⟨outlined hw hread hcut, fun s hs object hobject => ?_⟩
  rw [← map_source_operations hread] at hs
  obtain ⟨op, hop, rfl⟩ := List.mem_map.mp hs
  obtain ⟨inner, hinner, rfl⟩ := Option.map_eq_some_iff.mp hobject
  exact composed_operation hw hread hcut hop hinner (hops op hop inner hinner)

/-- In a specification that is well nested, with nothing in front of it that is open there, the
completions finish their job if no template region divides a literal that they read.  Schemas need
paths of ASCII characters, and a place that can be made without losing an entry or a route. -/
theorem finishes_of_undivided (policy : Policy) (h : Located t spec) (hw : spec.literal.Nested t)
    (hcut : spec.Undivided t) (hops : ∀ op ∈ spec.operations t, ∀ object ∈ op.object,
      object.Undivided t) :
    Finishes t spec (·.withoutRequestBody · policy) (injectRequestBodies policy t) ∧
    Finishes t spec (·.withoutResponses ·) (injectResponses policy t) ∧
    ((∀ r ∈ Route.all (.of t), IsAscii r.path) → (∀ op ∈ spec.operations t, IsAscii op.path) →
      SchemasOpen t spec →
      ∀ out ∈ injectSchemas policy t, ∃ spec', find? (.of out) = some spec' ∧
      spec'.name = spec.name ∧
        spec'.declaredAt = spec.declaredAt ∧
        ∀ schema ∈ spec.missingSchemas (.of t) policy, schema ∈ spec'.schemaNames out) := by
  have hv := completable_of_undivided h hw hcut hops
  exact ⟨finishes_requestBodies h hv, finishes_responses h hv, fun hroutes hpaths hopen out hout =>
    exists_injectSchemas h hw hcut.literal hopen hroutes hpaths hout⟩

/-- A service in which a request body, responses and schemas are missing. -/
def bare : Text :=
  "const s=\x7bopenapi:3,paths:\x7b'/a':\x7bpost:\x7ba:1\x7d,get:\x7bresponses:\x7b\x7d\x7d\x7d\x7d\x7d;app.put('/b',h)".toList

def bareSpec : Spec :=
  ⟨['s'], 0, ⟨8, 63, [⟨"openapi".toList, 9, 17, 18⟩, ⟨"paths".toList, 19, 25, 63⟩]⟩⟩

set_option maxRecDepth 2000 in
theorem finishes_of_undivided_bare : find? (.of bare) = some bareSpec ∧
    (bareSpec.withoutRequestBody bare .default).length = 1 ∧
    (bareSpec.withoutResponses bare).length = 2 ∧
    bareSpec.missingSchemas (.of bare) .default = ["CreateA".toList, "UpdateB".toList] ∧
    Finishes bare bareSpec (·.withoutRequestBody · .default) (injectRequestBodies .default bare) ∧
    Finishes bare bareSpec (·.withoutResponses ·) (injectResponses .default bare) ∧
    ∃ out ∈ injectSchemas .default bare, ∃ spec', find? (.of out) = some spec' ∧
      "CreateA".toList ∈ spec'.schemaNames out ∧ "UpdateB".toList ∈ spec'.schemaNames out := by
  have hchars : bare = _ := String.toList_ofList
  have hnested : bareSpec.literal.Nested bare := by
    have hbody : ∃ gs,
        WellNested 9 ("openapi:3,paths:".toList ++ '\x7b' :: (('\'' :: ("/a".toList ++ '\'' ::
        (":".toList ++ '\x7b' ::
          (("post:".toList ++ '\x7b' :: (("a:1".toList ++ []) ++ '\x7d' :: (",get:".toList ++
          '\x7b' :: (("responses:".toList ++ '\x7b' :: ([] ++ '\x7d' :: [])) ++ '\x7d' :: [])))) ++
          '\x7d' :: [])))) ++
            '\x7d' :: [])) gs :=
      ⟨_, .characters (by decide) (.group .brace (.quoted (.inl rfl)
        (.char (by decide) (by decide) (.char (by decide) (by decide) .nil))
        (.characters (by decide) (.group .brace (.characters (by decide) (.group .brace
          (.characters (by decide) .nil) (.characters (by decide) (.group .brace
            (.characters (by decide) (.group .brace .nil .nil)) .nil)))) .nil))) .nil)⟩
    exact ⟨9, hbody⟩
  have hspec : find? (.of bare) = some bareSpec ∧ Foremost bare bareSpec ∧ bareSpec.Undivided bare ∧
      ∀ op ∈ bareSpec.operations bare, ∀ object ∈ op.object, object.Undivided bare := by
    rw [hchars]
    decide
  have hschemas : (∀ r ∈ Route.all (.of bare), IsAscii r.path) ∧
      (∀ op ∈ bareSpec.operations bare, IsAscii op.path) ∧ SchemasOpen bare bareSpec := by
    rw [hchars]
    decide
  have hmissing : (bareSpec.withoutRequestBody bare .default).length = 1 ∧
      (bareSpec.withoutResponses bare).length = 2 ∧
      bareSpec.missingSchemas (.of bare) .default = ["CreateA".toList, "UpdateB".toList] ∧
      (injectSchemas .default bare).isSome := by
    rw [hchars]
    decide
  obtain ⟨hfound, hforemost, hcut, hops⟩ := hspec
  obtain ⟨hbodies, hresponses, hnames, hsome⟩ := hmissing
  obtain ⟨hfinishes, hfinishes', hdeclared⟩ :=
    finishes_of_undivided .default ⟨hfound, hforemost⟩ hnested hcut hops
  obtain ⟨out, hout⟩ := Option.isSome_iff_exists.mp hsome
  obtain ⟨spec', hspec', -, -, hall⟩ := hdeclared hschemas.1 hschemas.2.1 hschemas.2.2 out hout
  rw [hnames] at hall
  exact ⟨hfound, hbodies, hresponses, hnames, hfinishes, hfinishes', out, hout, spec', hspec',
    hall _ List.mem_cons_self, hall _ (List.mem_cons_of_mem _ List.mem_cons_self)⟩

def torn : Text :=
  "const s = \x7bopenapi: 3, paths: \x7b'/a': \x7bpost: \x7ba: \x60$\x7bx, b()\x7d//\x60\x7d\x7d\x7d\x7d;\n".toList

def tornSpec : Spec :=
  ⟨['s'], 0, ⟨10, 64, [⟨"openapi".toList, 11, 20, 21⟩, ⟨"paths".toList, 23, 30, 64⟩]⟩⟩

/-- Where a region divides the operation, the request body is written into the template. -/
theorem not_always_finished : ¬ ∀ (policy : Policy) (t : Text) (spec : Spec), Located t spec →
    spec.literal.Nested t → Finishes t spec (·.withoutRequestBody · policy)
    (injectRequestBodies policy t) := by
  intro h
  have hchars : torn = _ := String.toList_ofList
  have hnested : tornSpec.literal.Nested torn := by
    have htemplate : ∃ gs,
        TemplateBody 49 ('$' :: '\x7b' :: (("x, b".toList ++ '(' :: ([] ++ ')' :: [])) ++ '\x7d' ::
        ['/', '/'])) gs :=
      ⟨_, .region (.characters (by decide) (.group .paren .nil .nil))
        (.char (by decide) (by decide) (by decide)
        (.char (by decide) (by decide) (by decide) .nil))⟩
    obtain ⟨gs, htemplate⟩ := htemplate
    have hbody : ∃ gs,
        WellNested 11 ("openapi: 3, paths: ".toList ++ '\x7b' :: (('\'' :: ("/a".toList ++ '\'' ::
        (": ".toList ++ '\x7b' ::
          (("post: ".toList ++ '\x7b' :: (("a: ".toList ++ '\x60' :: (('$' :: '\x7b' ::
          (("x, b".toList ++ '(' :: ([] ++ ')' :: [])) ++ '\x7d' :: ['/', '/'])) ++ '\x60' ::
          [])) ++ '\x7d' :: [])) ++
            '\x7d' :: [])))) ++ '\x7d' :: [])) gs :=
      ⟨_, .characters (by decide) (.group .brace (.quoted (.inl rfl)
        (.char (by decide) (by decide) (.char (by decide) (by decide) .nil))
        (.characters (by decide) (.group .brace (.characters (by decide) (.group .brace
          (.characters (by decide) (.template htemplate .nil)) .nil)) .nil))) .nil)⟩
    exact ⟨11, hbody⟩
  have hspec : find? (.of torn) = some tornSpec ∧ Foremost torn tornSpec := by
    rw [hchars]
    decide
  have hmissing : ∃ out ∈ injectRequestBodies .default torn, ∀ spec ∈ find? (.of out),
      spec.withoutRequestBody out .default ≠ [] := by
    rw [hchars]
    decide +kernel
  obtain ⟨out, hout, hmissing⟩ := hmissing
  obtain ⟨spec, hfound, -, -, -, hnone⟩ :=
    (h .default torn tornSpec ⟨hspec.1, hspec.2⟩ hnested).2 out hout
  exact hmissing spec hfound hnone

end Repair

end ServiceGate
