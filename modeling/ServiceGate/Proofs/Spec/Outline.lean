/-
# The operations of a specification's source

The operations are told by the source of the specification alone (`map_source_operations`), and so
is what they lack.  So an edit is followed through by what it makes of the source: one operation
gets another literal (`exists_operation`), a path gets one more operation, or there is one more path
(`exists_item`, `exists_paths`).  All of them need literals that are read piece by piece, which
those of a well-nested specification are (`outlined`).
-/
import ServiceGate.Proofs.ObjectLiteral.Edited
import ServiceGate.Repair.Specification

namespace ServiceGate

open ObjectLiteral

variable {t p u v w : Text} {n : Nat} {policy : Policy} {spec : Spec} {op : SpecOperation}
  {o object paths item : ObjectLiteral} {e : ObjectEntry} {es es' : List ObjectEntry}

/-! ## Parts of lists -/

section

variable {α β : Type} {a : α} {b : β} {as front back : List α} {bs : List β}

/-- An element of a flattened list stands in one of the parts. -/
theorem exists_of_flatMap {f : β → List α} : ∀ {bs : List β} {front : List α},
    bs.flatMap f = front ++ a :: back → ∃ bs₁ b bs₂ front' back', bs = bs₁ ++ b :: bs₂ ∧
      f b = front' ++ a :: back' ∧ front = bs₁.flatMap f ++ front' ∧ back = back' ++ bs₂.flatMap f
  | [], front, h => by
      cases front <;> cases h
  | b :: bs, front, h => by
      rw [List.flatMap_cons] at h
      rcases List.append_eq_append_iff.mp h with ⟨front', rfl, hrest⟩ | ⟨back', hhead, hrest⟩
      · obtain ⟨bs₁, b', bs₂, front'', back', rfl, hb, rfl, rfl⟩ := exists_of_flatMap hrest
        exact ⟨b :: bs₁, b', bs₂, front'', back', rfl, hb, by simp, rfl⟩
      · cases back' with
        | nil =>
            obtain ⟨bs₁, b', bs₂, front'', back', rfl, hb, hfront, rfl⟩ :=
              @exists_of_flatMap _ bs [] hrest.symm
            exact ⟨b :: bs₁, b', bs₂, front'', back', rfl, hb, by simp [hhead, ← hfront], rfl⟩
        | cons a' back' =>
            obtain ⟨rfl, rfl⟩ := List.cons.inj hrest
            exact ⟨[], b, bs, front, back', rfl, hhead, rfl, rfl⟩

theorem exists_of_filterMap {f : β → Option α} (h : bs.filterMap f = front ++ a :: back) :
    ∃ bs₁ b bs₂, bs = bs₁ ++ b :: bs₂ ∧ f b = some a ∧ front = bs₁.filterMap f ∧
    back = bs₂.filterMap f := by
  obtain ⟨bs₁, rest, rfl, rfl, hrest⟩ := List.filterMap_eq_append_iff.mp h
  obtain ⟨bs₂, b, bs₃, rfl, hnone, hb, rfl⟩ := List.filterMap_eq_cons_iff.mp hrest
  refine ⟨bs₁ ++ bs₂, b, bs₃, by simp, hb, ?_, rfl⟩
  rw [List.filterMap_append, List.filterMap_eq_nil_iff.mpr hnone, List.append_nil]

end

/-! ## Operations -/

/-- An operation with its literal as it is written. -/
structure OperationSource where
  path : Text
  method : Text
  object : Option Text
deriving DecidableEq

/-- The operation with its literal as it is written. -/
def SpecOperation.source (t : Text) (op : SpecOperation) : OperationSource :=
  ⟨op.path, op.method, op.object.map (·.source t)⟩

namespace OperationSource

def key (s : OperationSource) : Text := RoutePath.key s.method s.path

/-- Whether an operation that changes a resource lacks a request body. -/
def lacksRequestBody (policy : Policy) (s : OperationSource) : Bool :=
  Route.mutationMethods.contains s.method && (Spec.expectedSchema? policy s.method s.path).isSome &&
    s.object.any (!hasField · "requestBody".toList)

/-- Whether an operation has no responses or an empty object of them. -/
def lacksResponses (s : OperationSource) : Bool :=
  s.object.any fun v => match (fields v).find? (·.1 == "responses".toList) with
    | none => true
    | some f => f.2.any fun w => (fields w).isEmpty

def ofField? (path : Text) (f : Text × Option Text) : Option OperationSource :=
  let method := f.1.lower
  if Spec.methods.contains method then some ⟨RoutePath.normalize path, method, f.2⟩ else none

def ofPath (f : Text × Option Text) : List OperationSource :=
  match f.2 with
  | none => []
  | some item => (fields item).filterMap (ofField? f.1)

def ofPaths (p : Text) : List OperationSource := (fields p).flatMap ofPath

def all (v : Text) : List OperationSource := ((value? v "paths".toList).map ofPaths).getD []

end OperationSource

open OperationSource

theorem source_operation? (t path : Text) (e : ObjectEntry) :
    (Spec.operation? t path e).map (·.source t) = ofField? path (e.field t) := by
  rw [Spec.operation?, ofField?, ObjectEntry.field]
  dsimp only
  split_ifs <;> rfl

theorem map_source_filterMap (t path : Text) (es : List ObjectEntry) :
    (es.filterMap (Spec.operation? t path)).map (·.source t) = (es.map (·.field t)).filterMap
    (ofField? path) := by
  rw [List.map_filterMap, List.filterMap_map]
  exact List.filterMap_congr fun e _ => source_operation? t path e

theorem map_source_operationsOfPath (t : Text) (e : ObjectEntry) :
    (Spec.operationsOfPath t e).map (·.source t) = ofPath (e.field t) := by
  rw [Spec.operationsOfPath, ofPath, ObjectEntry.field]
  cases hitem : e.object? t with
  | none => rfl
  | some item =>
      dsimp only [Option.map_some]
      rw [fields_source hitem, map_source_filterMap]

theorem map_source_flatMap (t : Text) (es : List ObjectEntry) :
    (es.flatMap (Spec.operationsOfPath t)).map (·.source t) =
    (es.map (·.field t)).flatMap ofPath := by
  rw [List.map_flatMap, List.flatMap_map]
  exact List.flatMap_congr fun e _ => map_source_operationsOfPath t e

namespace Spec

theorem paths?_source (h : readAt? t n = some spec.literal) :
    value? (spec.literal.source t) "paths".toList = (spec.paths? t).map (·.source t) :=
  value?_source h _

theorem exists_entry_of_paths? {paths : ObjectLiteral} (h : spec.paths? t = some paths) :
    ∃ e, spec.literal.get? "paths".toList = some e ∧ e.object? t = some paths :=
  Option.bind_eq_some_iff.mp h

/-- The operations are those of the source. -/
theorem map_source_operations (h : readAt? t n = some spec.literal) :
    (spec.operations t).map (·.source t) = all (spec.literal.source t) := by
  rw [operations, all, paths?_source h]
  cases hpaths : spec.paths? t with
  | none => rfl
  | some paths =>
      obtain ⟨e, -, hread⟩ := exists_entry_of_paths? hpaths
      dsimp only [Option.map_some, Option.getD_some]
      rw [ofPaths, fields_source hread, map_source_flatMap]

theorem operationKeys_source (h : readAt? t n = some spec.literal) :
    spec.operationKeys t = (all (spec.literal.source t)).map (·.key) := by
  rw [operationKeys, ← map_source_operations h, List.map_map]
  rfl

theorem exists_of_mem_operations (hop : op ∈ spec.operations t)
    (hobject : op.object = some object) :
    ∃ paths, spec.paths? t = some paths ∧ ∃ e ∈ paths.entries, ∃ item, e.object? t = some item ∧
      ∃ e' ∈ item.entries, e'.object? t = some object := by
  rw [operations] at hop
  cases hpaths : spec.paths? t with
  | none =>
      rw [hpaths] at hop
      cases hop
  | some paths =>
      rw [hpaths] at hop
      obtain ⟨e, he, hop⟩ := List.mem_flatMap.mp hop
      rw [operationsOfPath] at hop
      cases hitem : e.object? t with
      | none =>
          rw [hitem] at hop
          cases hop
      | some item =>
          rw [hitem] at hop
          obtain ⟨e', he', hop⟩ := List.mem_filterMap.mp hop
          rw [operation?] at hop
          split_ifs at hop
          rw [← Option.some.inj hop] at hobject
          exact ⟨paths, rfl, e, he, item, hitem, e', he', hobject⟩

theorem exists_readAt?_of_mem_operations (hop : op ∈ spec.operations t)
    (hobject : op.object = some object) :
    ∃ m, readAt? t m = some object := by
  obtain ⟨-, -, -, -, -, -, e, -, hread⟩ := exists_of_mem_operations hop hobject
  exact ⟨_, hread⟩

theorem lacksRequestBody_source (hop : op ∈ spec.operations t) :
    lacksRequestBody policy op = (op.source t).lacksRequestBody policy := by
  rw [lacksRequestBody, OperationSource.lacksRequestBody, SpecOperation.source]
  cases hobject : op.object with
  | none => rfl
  | some object =>
      obtain ⟨m, hread⟩ := exists_readAt?_of_mem_operations hop hobject
      simp only [Option.map_some, Option.any_some, hasField_source hread]

theorem lacksResponses_source (hop : op ∈ spec.operations t) :
    lacksResponses t op = (op.source t).lacksResponses := by
  rw [lacksResponses, OperationSource.lacksResponses, SpecOperation.source]
  cases hobject : op.object with
  | none => rfl
  | some object =>
      obtain ⟨m, hread⟩ := exists_readAt?_of_mem_operations hop hobject
      dsimp only [Option.map_some, Option.any_some]
      rw [fields_source hread, List.find?_map, get?]
      change _ = match (object.entries.find? (·.key == "responses".toList)).map (·.field t) with
        | none => true
        | some f => f.2.any fun w => (fields w).isEmpty
      cases object.entries.find? (·.key == "responses".toList) with
      | none => rfl
      | some e =>
          dsimp only [Option.map_some, ObjectEntry.field]
          cases hinner : e.object? t with
          | none => rfl
          | some inner => simp only [Option.any_some, Option.map_some, fields_source hinner,
              List.isEmpty_map]

end Spec

/-! ## Edits -/

/-- The literals on the paths are read piece by piece. -/
structure ComposedPaths (p : Text) : Prop where
  whole : Composed p
  items : ∀ f ∈ fields p, ∀ item ∈ f.2, Composed item

/-- A specification is read piece by piece down to its paths. -/
structure Outlined (v : Text) : Prop where
  whole : Composed v
  paths : ∀ p ∈ value? v "paths".toList, ComposedPaths p

theorem all_of_paths (h : value? v "paths".toList = some p) : all v = ofPaths p := by
  rw [all, h, Option.map_some, Option.getD_some]

theorem ofPaths_split {fs fs' : List (Text × Option Text)} {f : Text × Option Text}
    (h : fields p = fs ++ f :: fs') :
    ofPaths p = fs.flatMap ofPath ++ (ofPath f ++ fs'.flatMap ofPath) := by
  rw [ofPaths, h, List.flatMap_append, List.flatMap_cons]

theorem ComposedPaths.composed_item (h : ComposedPaths (paths.source t))
    (hread : readAt? t n = some paths) (he : e ∈ paths.entries) (hitem : e.object? t = some item) :
    Composed (item.source t) := by
  refine h.items (e.field t) ?_ _ ?_
  · rw [fields_source hread]
    exact List.mem_map_of_mem he
  · rw [ObjectEntry.field, hitem]
    rfl

theorem Outlined.composedPaths (h : Outlined (spec.literal.source t))
    (hread : readAt? t n = some spec.literal) (hpaths : spec.paths? t = some paths) :
    ComposedPaths (paths.source t) :=
  h.paths _ (by rw [Spec.paths?_source hread, hpaths]; rfl)

namespace Spec

/-- Another literal on a path. -/
theorem exists_item (hread : readAt? t n = some paths) (hp : ComposedPaths (paths.source t))
    (hes : paths.entries = es ++ e :: es') (hitem : e.object? t = some item) (hw : Composed w) :
    ∃ p, item.replaced t w = paths.replaced t p ∧ ComposedPaths p ∧
      fields p = es.map (·.field t) ++ (e.key, some w) :: es'.map (·.field t) ∧
        (Filled (paths.source t) → Filled p) := by
  obtain ⟨p, hreplaced, hcomposed, hfields, hfilled⟩ :=
    exists_exchanged hread hp.whole hes hitem hw.braced
  refine ⟨p, hreplaced, ⟨hcomposed, fun f hf inner hinner => ?_⟩, hfields, hfilled⟩
  have hold : ∀ e' ∈ es ++ es', ∀ inner ∈ (e'.field t).2, Composed inner :=
    fun e' he' inner hinner => by
    refine hp.items (e'.field t) ?_ inner hinner
    rw [fields_source hread, hes]
    refine List.mem_map_of_mem ?_
    simp only [List.mem_append, List.mem_cons] at he' ⊢
    exact he'.elim .inl fun h => .inr (.inr h)
  rw [hfields, List.mem_append, List.mem_cons] at hf
  rcases hf with hf | rfl | hf
  · obtain ⟨e', he', rfl⟩ := List.mem_map.mp hf
    exact hold e' (List.mem_append_left _ he') inner hinner
  · exact Option.some.inj hinner ▸ hw
  · obtain ⟨e', he', rfl⟩ := List.mem_map.mp hf
    exact hold e' (List.mem_append_right _ he') inner hinner

/-- Another `paths`. -/
theorem exists_paths (hread : readAt? t n = some spec.literal)
    (hv : Outlined (spec.literal.source t)) (hpaths : spec.paths? t = some paths)
    (hp : ComposedPaths p) :
    ∃ v, paths.replaced t p = spec.literal.replaced t v ∧ Outlined v ∧
      Exchanged (spec.literal.source t) v "paths".toList p := by
  obtain ⟨e, he, hinner⟩ := exists_entry_of_paths? hpaths
  obtain ⟨v, hreplaced, hexchanged⟩ :=
    exists_exchanged_value hread hv.whole he hinner hp.whole.braced
  refine ⟨v, hreplaced, ⟨hexchanged.composed, fun p' hp' => ?_⟩, hexchanged⟩
  rw [hexchanged.value] at hp'
  exact Option.some.inj hp' ▸ hp

/-- Another literal for an operation: it is the only operation that changes. -/
theorem exists_operation {ops ops' : List SpecOperation} (hread : readAt? t n = some spec.literal)
    (hv : Outlined (spec.literal.source t)) (hops : spec.operations t = ops ++ op :: ops')
    (hobject : op.object = some object) (hw : Braced w) :
    ∃ v, object.replaced t w = spec.literal.replaced t v ∧ Outlined v ∧
    names v = names (spec.literal.source t) ∧
      all v = ops.map (·.source t) ++ ⟨op.path, op.method, some w⟩ :: ops'.map (·.source t) := by
  rw [operations] at hops
  cases hpaths : spec.paths? t with
  | none =>
      rw [hpaths] at hops
      cases ops <;> cases hops
  | some paths =>
      rw [hpaths] at hops
      obtain ⟨_, -, hreadPaths⟩ := exists_entry_of_paths? hpaths
      have hp := hv.composedPaths hread hpaths
      obtain ⟨es, e, es', front, back, hes, hofPath, rfl, rfl⟩ := exists_of_flatMap hops
      cases hitem : e.object? t with
      | none =>
          rw [operationsOfPath, hitem] at hofPath
          cases front <;> cases hofPath
      | some item =>
          rw [operationsOfPath, hitem] at hofPath
          obtain ⟨fs, f, fs', hfs, hf, rfl, rfl⟩ := exists_of_filterMap hofPath
          rw [operation?] at hf
          split_ifs at hf with hmethod
          obtain rfl := Option.some.inj hf
          obtain ⟨w₁, hitemOut, hcomposed, hfields, -⟩ := exists_exchanged hitem
            (hp.composed_item hreadPaths (hes ▸ List.mem_append_right es List.mem_cons_self) hitem)
            hfs hobject hw
          obtain ⟨w₂, hpathsOut, hcomposed₂, hfields₂, -⟩ :=
            exists_item hreadPaths hp hes hitem hcomposed
          obtain ⟨v, hspecOut, houtlined, hexchanged⟩ := exists_paths hread hv hpaths hcomposed₂
          refine ⟨v, hitemOut.trans (hpathsOut.trans hspecOut), houtlined, hexchanged.names, ?_⟩
          have hbelow : ofPath (e.key, some w₁) = (fs.filterMap (operation? t e.key)).map
              (·.source t) ++
              ⟨RoutePath.normalize e.key, f.key.lower, some w⟩ ::
                (fs'.filterMap (operation? t e.key)).map (·.source t) := by
            have hmiddle : ofField? e.key (f.key, some w) = some ⟨RoutePath.normalize e.key,
                f.key.lower, some w⟩ :=
              if_pos hmethod
            rw [ofPath]
            dsimp only
            rw [hfields, List.filterMap_append, List.filterMap_cons_some hmiddle,
              ← map_source_filterMap, ← map_source_filterMap]
          rw [all_of_paths hexchanged.value, ofPaths_split hfields₂, hbelow, ← map_source_flatMap,
            ← map_source_flatMap]
          simp [SpecOperation.source]

/-! ## Well-nested specifications -/

/-- No template region divides the specification, `paths` or what stands on a path. -/
structure Undivided (t : Text) (spec : Spec) : Prop where
  literal : spec.literal.Undivided t
  paths : ∀ paths ∈ spec.paths? t, paths.Undivided t
  items : ∀ paths ∈ spec.paths? t, ∀ e ∈ paths.entries, ∀ item ∈ e.object? t, item.Undivided t

instance (t : Text) (spec : Spec) : Decidable (spec.Undivided t) :=
  decidable_of_iff (spec.literal.Undivided t ∧ (∀ paths ∈ spec.paths? t, paths.Undivided t) ∧
      ∀ paths ∈ spec.paths? t, ∀ e ∈ paths.entries, ∀ item ∈ e.object? t, item.Undivided t)
    ⟨fun h => ⟨h.1, h.2.1, h.2.2⟩, fun h => ⟨h.1, h.2, h.3⟩⟩

/-- A specification that is well nested is read piece by piece down to its paths. -/
theorem outlined (hw : spec.literal.Nested t) (hread : readAt? t n = some spec.literal)
    (hcut : spec.Undivided t) :
    Outlined (spec.literal.source t) := by
  refine ⟨hw.composed hread hcut.literal, fun p hp => ?_⟩
  rw [paths?_source hread] at hp
  obtain ⟨paths, hpaths, rfl⟩ := Option.map_eq_some_iff.mp hp
  obtain ⟨⟨m, hreadPaths⟩, hwPaths⟩ := hw.value hread hcut.literal hpaths
  refine ⟨hwPaths.composed hreadPaths (hcut.paths paths hpaths), fun f hf item hitem => ?_⟩
  rw [fields_source hreadPaths] at hf
  obtain ⟨e, he, rfl⟩ := List.mem_map.mp hf
  obtain ⟨inner, hinner, rfl⟩ := Option.map_eq_some_iff.mp hitem
  exact (hwPaths.object? hreadPaths (hcut.paths paths hpaths) he hinner).composed hinner
    (hcut.items paths hpaths e he inner hinner)

theorem composed_operation (hw : spec.literal.Nested t) (hread : readAt? t n = some spec.literal)
    (hcut : spec.Undivided t) (hop : op ∈ spec.operations t) (hobject : op.object = some object)
    (hopCut : object.Undivided t) : Composed (object.source t) := by
  obtain ⟨paths, hpaths, e, he, item, hitem, e', he', hinner⟩ :=
    exists_of_mem_operations hop hobject
  obtain ⟨⟨m, hreadPaths⟩, hwPaths⟩ := hw.value hread hcut.literal hpaths
  have hwItem := hwPaths.object? hreadPaths (hcut.paths paths hpaths) he hitem
  exact (hwItem.object? hitem (hcut.items paths hpaths e he item hitem) he' hinner).composed hinner
    hopCut

end Spec

end ServiceGate
