/-
# Every operation that is missing is declared

A declaration adds one operation to the specification and leaves the others: on a new path, or
behind the operations of a path that is there (`exists_declareOperation`).  So a run of them adds
those it was given (`exists_declareOperations`), and the drift is what it is given
(`drift_declared`).

What changes from one declaration to the next is followed on the text of the specification alone:
`HasRoom` says that its paths can take an operation, and `AddsKey` that a step added one key and
moved nothing else.  Keys come as a permutation, for an operation on a path that is there is put
behind the others of that path and not behind all of them.

`PathsOpen` collects what has to hold of the text at the start.  Its last field asks that writing an
empty `paths` changes no route, which is the one thing here that is not about the specification.
-/
import ServiceGate.Proofs.Balanced.Specification
import ServiceGate.Proofs.Repair.Inserted
import ServiceGate.Proofs.Spec.Located
import ServiceGate.Proofs.Spec.Outline

namespace ServiceGate

open Scan ObjectLiteral OperationSource

variable {t u v w p q name method path : Text} {place n : Nat} {policy : Policy} {spec : Spec}
  {o paths item : ObjectLiteral} {e : ObjectEntry}

/-- The paths `p` of a specification have room for more operations. -/
structure HasRoom (v p : Text) : Prop where
  outlined : Outlined v
  value : value? v "paths".toList = some p
  filled : Filled p
  items : ∀ f ∈ fields p, ∀ item ∈ f.2, Filled item

theorem HasRoom.exists_paths? (h : HasRoom (spec.literal.source t) p)
    (hread : readAt? t n = some spec.literal) :
    ∃ paths m, spec.paths? t = some paths ∧ readAt? t m = some paths ∧ paths.source t = p := by
  obtain ⟨e, paths, he, hinner, rfl⟩ := exists_of_value? hread h.value
  exact ⟨paths, _, by rw [Spec.paths?, he, Option.bind_some, hinner], hinner, rfl⟩

/-- What is declared on the path is written in place. -/
def Inline (p path : Text) : Prop := ∀ f ∈ fields p, RoutePath.normalize f.1 = path →
  f.2.isSome = true

/-- One operation more, and paths are in place where they were. -/
structure AddsKey (p q key : Text) : Prop where
  keys : ((ofPaths q).map (·.key)).Perm ((ofPaths p).map (·.key) ++ [key])
  inline : ∀ path, Inline p path → Inline q path

theorem ofPath_append {f f' : Text × Option Text} (h : fields w = fields u ++ [f'])
    (hkey : f = (path, some u)) :
    ofPath (path, some w) = ofPath f ++ (ofField? path f').toList := by
  subst hkey
  rw [ofPath, ofPath]
  dsimp only
  rw [h, List.filterMap_append]
  cases hf : ofField? path f' <;> simp [hf]

/-- A key of an operation that can be declared. -/
structure IsOperation (method path : Text) : Prop where
  known : Spec.methods.contains method = true
  lower : method.lower = method
  bare : IsKeyName method
  normal : RoutePath.normalize path = path

theorem IsOperation.ofField? (h : IsOperation method path) (hkey : RoutePath.normalize u = path) :
    OperationSource.ofField? u (method, some w) = some ⟨path, method, some w⟩ := by
  rw [OperationSource.ofField?]
  dsimp only
  rw [h.lower, if_pos h.known, hkey]

theorem addsKey_append (h : IsOperation method path)
    (hfields : fields q = fields p ++ [(path, some u)]) (hu : fields u = [(method, some w)]) :
    AddsKey p q (RoutePath.key method path) := by
  have hnew : ofPath (path, some u) = [⟨path, method, some w⟩] := by
    rw [ofPath]
    dsimp only
    rw [hu, List.filterMap_cons_some (h.ofField? h.normal), List.filterMap_nil]
  refine ⟨?_, fun path' hinline f hf hpath => ?_⟩
  · rw [ofPaths, hfields, List.flatMap_append, List.flatMap_cons, hnew, List.flatMap_nil,
      List.append_nil, List.map_append]
    exact .refl _
  · rw [hfields, List.mem_append, List.mem_singleton] at hf
    rcases hf with hf | rfl
    · exact hinline f hf hpath
    · rfl

/-- An operation behind those of a path. -/
theorem addsKey_exchange {fs fs' : List (Text × Option Text)} {key : Text}
    (h : IsOperation method path) (hkey : RoutePath.normalize key = path)
    (hp : fields p = fs ++ (key, some u) :: fs') (hq : fields q = fs ++ (key, some v) :: fs')
    (hv : fields v = fields u ++ [(method, some w)]) :
    AddsKey p q (RoutePath.key method path) := by
  have hnew : ofPath (key, some v) = ofPath (key, some u) ++ [⟨path, method, some w⟩] := by
    rw [ofPath_append hv rfl, h.ofField? hkey]
    rfl
  refine ⟨?_, fun path' hinline f hf hpath => ?_⟩
  · rw [ofPaths_split hp, ofPaths_split hq, hnew]
    simp only [List.map_append, List.append_assoc, List.map_cons, List.map_nil, OperationSource.key]
    exact .append_left _ (.append_left _ List.perm_append_comm)
  · rw [hq, List.mem_append, List.mem_cons] at hf
    rcases hf with hf | rfl | hf
    · exact hinline f (hp ▸ List.mem_append_left _ hf) hpath
    · rfl
    · exact hinline f (hp ▸ List.mem_append_right _ (List.mem_cons_of_mem _ hf)) hpath

namespace Repair

open Spec

theorem exists_room (h : Located t spec) (hu : HasRoom (spec.literal.source t) p)
    (hpaths : spec.paths? t = some paths) (hq : ComposedPaths q) (hfilled : Filled q)
    (hitems : ∀ f ∈ fields q, ∀ item ∈ f.2, Filled item) :
    ∃ v, LocatedAs (paths.replaced t q) spec.name spec.declaredAt v ∧ HasRoom v q := by
  obtain ⟨n, hread⟩ := h.exists_readAt?
  obtain ⟨v, hreplaced, houtlined, hexchanged⟩ := exists_paths hread hu.outlined hpaths hq
  refine ⟨v, ?_, houtlined, hexchanged.value, hfilled, hitems⟩
  rw [hreplaced]
  exact h.replaced_of_names hexchanged.composed fun key hkey => hexchanged.names ▸ hkey

/-- An operation is declared beside the others. -/
theorem exists_declareOperation (policy : Policy) (h : LocatedAs t name place u) (hu : HasRoom u p)
    (hop : IsOperation method path) (hinline : Inline p path) :
    ∃ out v q, declareOperation policy method path t = some (out, true) ∧
      LocatedAs out name place v ∧ HasRoom v q ∧ AddsKey p q (RoutePath.key method path) := by
  obtain ⟨o, h, rfl⟩ := h
  obtain ⟨n, hread⟩ := h.exists_readAt?
  obtain ⟨paths, m, hpaths, hreadPaths, rfl⟩ := hu.exists_paths? hread
  have hcomposed := hu.outlined.paths _ hu.value
  have hwritten : Braced (renderOperation policy method path) := braced_renderOperation
  rw [declareOperation, specOf?, h.found]
  simp only [Option.bind_eq_bind, Option.bind_some, hpaths]
  cases hfind : paths.entries.find? fun e => RoutePath.normalize e.key == path with
  | none =>
      obtain ⟨hitem, hfields, hfilledItem⟩ := composed_braced (Key.name hop.bare) hwritten
      obtain ⟨q, hinsert, happended⟩ :=
        exists_appended hreadPaths hcomposed.whole (Key.encode path) hitem.braced
      replace happended := happended.resolve_right fun hblank => hblank.1 hu.filled
      have hitems : ∀ (P : Text → Prop), (∀ f ∈ fields (paths.source t), ∀ item ∈ f.2, P item) →
          P (Spec.braced [Spec.entry method (renderOperation policy method path)]) →
          ∀ f ∈ fields q, ∀ item ∈ f.2, P item := fun P hold hnew f hf item hitem => by
        rw [happended.fields, List.mem_append, List.mem_singleton] at hf
        rcases hf with hf | rfl
        · exact hold f hf item hitem
        · exact Option.some.inj hitem ▸ hnew
      obtain ⟨v, hlocated, hroom⟩ := exists_room h hu hpaths
        ⟨happended.composed, hitems Composed hcomposed.items hitem⟩ happended.filled
        (hitems Filled hu.items hfilledItem)
      exact ⟨_, v, q, congrArg (fun out => some (out, true)) hinsert, hlocated, hroom,
        addsKey_append hop happended.fields hfields⟩
  | some e =>
      obtain ⟨hkey, es, es', hes, -⟩ := List.find?_eq_some_iff_append.mp hfind
      have hmem : e ∈ paths.entries := hes ▸ List.mem_append_right es List.mem_cons_self
      have hold : fields (paths.source t) = es.map (·.field t) ++ e.field t ::
          es'.map (·.field t) := by
        rw [fields_source hreadPaths, hes, List.map_append, List.map_cons]
      have hfield : e.field t ∈ fields (paths.source t) :=
        hold ▸ List.mem_append_right _ List.mem_cons_self
      have hsome := hinline (e.field t) hfield (beq_iff_eq.mp hkey)
      rw [ObjectEntry.field, Option.isSome_map] at hsome
      obtain ⟨item, hitem⟩ := Option.isSome_iff_exists.mp hsome
      have hsource : e.field t = (e.key, some (item.source t)) := by
        rw [ObjectEntry.field, hitem, Option.map_some]
      obtain ⟨w, hinsert, happended⟩ :=
        exists_appended hitem (hcomposed.composed_item hreadPaths hmem hitem)
        (Key.name hop.bare) hwritten
      replace happended := happended.resolve_right fun hblank =>
        hblank.1 (hu.items _ hfield _ (by rw [hsource]; rfl))
      obtain ⟨q, hreplaced, hcomposed', hfields, hfilled⟩ :=
        exists_item hreadPaths hcomposed hes hitem happended.composed
      rw [hsource] at hold
      obtain ⟨v, hlocated, hroom⟩ := exists_room h hu hpaths hcomposed' (hfilled hu.filled)
        (fun f hf inner hinner => by
          rw [hfields, List.mem_append, List.mem_cons] at hf
          rcases hf with hf | rfl | hf
          · exact hu.items f (hold ▸ List.mem_append_left _ hf) inner hinner
          · exact Option.some.inj hinner ▸ happended.filled
          · exact hu.items f (hold ▸ List.mem_append_right _ (List.mem_cons_of_mem _ hf)) inner
              hinner)
      simp only [hitem]
      exact ⟨_, v, q, congrArg (fun out => some (out, true)) (hinsert.trans hreplaced), hlocated,
        hroom, addsKey_exchange hop (beq_iff_eq.mp hkey) hold hfields happended.fields⟩

/-- Operations that are declared one behind the other are all declared, and nothing else is. -/
theorem exists_declareOperations (policy : Policy) : ∀ {keys : List Text} {t u p : Text},
    LocatedAs t name place u → HasRoom u p →
    (∀ key ∈ keys, ∃ method path, Text.splitOnce? key ':' = some (method, path) ∧
      key = RoutePath.key method path ∧ IsOperation method path ∧ Inline p path) →
    ∃ out written v q, declareOperations policy keys t = some (out, written) ∧
    written = !keys.isEmpty ∧
      LocatedAs out name place v ∧ HasRoom v q ∧
      ((ofPaths q).map (·.key)).Perm ((ofPaths p).map (·.key) ++ keys)
  | [], t, u, p, h, hu, _ => ⟨t, false, u, p, rfl, rfl, h, hu, by rw [List.append_nil]⟩
  | key :: keys, t, u, p, h, hu, hkeys => by
      obtain ⟨⟨method, path, hsplit, rfl, hop, hinline⟩, hrest⟩ := List.forall_mem_cons.mp hkeys
      obtain ⟨out, v, q, hout, hlocated, hroom, hadds⟩ :=
        exists_declareOperation policy h hu hop hinline
      obtain ⟨last, written, v', q', hlast, -, hlocated', hroom', hperm⟩ :=
        exists_declareOperations policy hlocated hroom fun key hkey => by
          obtain ⟨method, path, hsplit, hkey, hop, hinline⟩ := hrest key hkey
          exact ⟨method, path, hsplit, hkey, hop, hadds.inline path hinline⟩
      refine ⟨last, true, v', q', ?_, rfl, hlocated', hroom', ?_⟩
      · rw [declareOperations, hsplit]
        simp only [hout, Option.bind_eq_bind, Option.bind_some, hlast]
        rfl
      · refine hperm.trans ((hadds.keys.append_right keys).trans ?_)
        rw [List.append_assoc, List.singleton_append]

/-- Operations can be added to the specification: `paths` is absent or written in place, what is
added has a value to follow, and a place for `paths` can be made without losing a route. -/
structure PathsOpen (t : Text) (spec : Spec) : Prop where
  inline : spec.literal.hasKey "paths".toList = true → (spec.paths? t).isSome = true
  filled : spec.literal.hasKey "paths".toList = false →
    ∀ last ∈ spec.literal.entries.getLast?, (behindValue? t last).isSome = true
  paths : ∀ paths ∈ spec.paths? t, ∀ last ∈ paths.entries.getLast?,
    (behindValue? t last).isSome = true
  items : ∀ paths ∈ spec.paths? t, ∀ e ∈ paths.entries, ∀ item ∈ e.object? t,
    ∀ last ∈ item.entries.getLast?, (behindValue? t last).isSome = true
  calls : ∀ start ∈ ensurePaths t, calls start = calls t

instance (t : Text) (spec : Spec) : Decidable (PathsOpen t spec) :=
  decidable_of_iff ((spec.literal.hasKey "paths".toList = true → (spec.paths? t).isSome = true) ∧
      (spec.literal.hasKey "paths".toList = false →
        ∀ last ∈ spec.literal.entries.getLast?, (behindValue? t last).isSome = true) ∧
      (∀ paths ∈ spec.paths? t, ∀ last ∈ paths.entries.getLast?,
        (behindValue? t last).isSome = true) ∧
      (∀ paths ∈ spec.paths? t, ∀ e ∈ paths.entries, ∀ item ∈ e.object? t,
        ∀ last ∈ item.entries.getLast?, (behindValue? t last).isSome = true) ∧
      ∀ start ∈ ensurePaths t, calls start = calls t)
    ⟨fun h => ⟨h.1, h.2.1, h.2.2.1, h.2.2.2.1, h.2.2.2.2⟩, fun h => ⟨h.1, h.2, h.3, h.4, h.5⟩⟩

theorem isKeyName_paths : IsKeyName "paths".toList := ⟨by decide, by decide⟩

/-- A place for operations can be made, with the operations that are there. -/
theorem exists_ensurePaths (h : Located t spec) (hu : Outlined (spec.literal.source t))
    (hopen : PathsOpen t spec) :
    ∃ start v p, ensurePaths t = some start ∧ LocatedAs start spec.name spec.declaredAt v ∧
    HasRoom v p ∧
      (ofPaths p).map (·.key) = spec.operationKeys t ∧ ∀ path,
      (∀ paths ∈ spec.paths? t, ∀ e ∈ paths.entries,
        RoutePath.normalize e.key = path → (e.object? t).isSome = true) → Inline p path := by
  obtain ⟨n, hread⟩ := h.exists_readAt?
  rw [ensurePaths, specOf?, h.found, Option.map_some]
  by_cases hkey : spec.literal.hasKey "paths".toList = true
  · rw [if_pos hkey]
    obtain ⟨paths, hpaths⟩ := Option.isSome_iff_exists.mp (hopen.inline hkey)
    obtain ⟨_, -, hreadPaths⟩ := exists_entry_of_paths? hpaths
    have hvalue : value? (spec.literal.source t) "paths".toList = some (paths.source t) := by
      rw [paths?_source hread, hpaths, Option.map_some]
    refine ⟨t, _, paths.source t, rfl, ⟨spec.literal, h, rfl⟩,
      ⟨hu, hvalue, ?_, fun f hf item hitem => ?_⟩, ?_, fun path hinline f hf hpath => ?_⟩
    · exact (filled_source hreadPaths).mpr (hopen.paths paths hpaths)
    · rw [fields_source hreadPaths] at hf
      obtain ⟨e, he, rfl⟩ := List.mem_map.mp hf
      obtain ⟨inner, hinner, rfl⟩ := Option.map_eq_some_iff.mp hitem
      exact (filled_source hinner).mpr (hopen.items paths hpaths e he inner hinner)
    · rw [operationKeys_source hread, all_of_paths hvalue]
    · rw [fields_source hreadPaths] at hf
      obtain ⟨e, he, rfl⟩ := List.mem_map.mp hf
      rw [ObjectEntry.field, Option.isSome_map]
      exact hinline paths hpaths e he hpath
  · have hnone : hasField (spec.literal.source t) "paths".toList = false :=
      (hasField_source hread _).trans (Bool.not_eq_true _ ▸ hkey)
    have hfilled := (filled_source hread).mpr (hopen.filled (Bool.not_eq_true _ ▸ hkey))
    obtain ⟨v, hinsert, happended⟩ :=
      exists_appended hread hu.whole (Key.name isKeyName_paths) composed_empty.braced
    replace happended := happended.resolve_right fun hblank => hblank.1 hfilled
    have hvalue := happended.value hnone
    rw [if_neg hkey]
    refine ⟨_, v, "\x7b\x7d".toList, congrArg some hinsert,
      h.replaced_of_names happended.composed fun key hkey =>
      happended.names ▸ List.mem_append_left _ hkey,
      ⟨⟨happended.composed, fun p hp => ?_⟩, hvalue, ?_, ?_⟩, ?_, ?_⟩
    · obtain rfl := Option.some.inj (hvalue.symm.trans hp)
      exact ⟨composed_empty, fun f hf => absurd (fields_empty ▸ hf) List.not_mem_nil⟩
    · exact filled_empty
    · exact fun f hf => absurd (fields_empty ▸ hf) List.not_mem_nil
    · rw [operationKeys_source hread, all, value?_of_hasField hnone, ofPaths, fields_empty]
      rfl
    · exact fun path _ f hf => absurd (fields_empty ▸ hf) List.not_mem_nil

theorem driftKeys_eq (t : Text) (spec : Spec) (policy : Policy) : spec.driftKeys (.of t) policy =
    sortedSet
    ((((calls t).filter fun c => !policy.isInfraPath (RoutePath.normalize c.2)).map fun c =>
      RoutePath.key c.1 c.2).filter (!(spec.operationKeys t).contains ·)) := by
  have hkeys : ((calls t).filter fun c => !policy.isInfraPath (RoutePath.normalize c.2)).map
      (fun c =>
      RoutePath.key c.1 c.2) =
        ((Route.all (.of t)).filter fun r => !policy.isInfraPath r.normalPath).map (·.key) := by
    rw [calls, List.filter_map, List.map_map]
    rfl
  rw [hkeys]
  rfl

theorem exists_of_mem_driftKeys {key : Text} (h : key ∈ spec.driftKeys (.of t) policy) :
    ∃ r ∈ Route.all (.of t), key = r.key ∧ Text.splitOnce? key ':' = some (r.method, r.normalPath) ∧
      key = RoutePath.key r.method r.normalPath ∧ IsOperation r.method r.normalPath := by
  have hwords : ∀ m ∈ Route.methodWords, Spec.methods.contains m = true ∧ m.lower = m ∧ m ≠ [] ∧
      (∀ c ∈ m, CharClass.isName c = true) ∧ ':' ∉ m := by
    decide +kernel
  obtain ⟨r, hr, rfl⟩ := List.mem_map.mp (List.mem_filter.mp (mem_sortedSet.mp h)).1
  replace hr := (List.mem_filter.mp hr).1
  obtain ⟨hknown, hlower, hne, hchars, hcolon⟩ := hwords r.method (Route.method_mem hr)
  have hnormal := RoutePath.normalize_normalize r.path
  refine ⟨r, hr, rfl, ?_, ?_, ⟨hknown, hlower, ⟨hne, hchars⟩, hnormal⟩⟩
  · rw [Route.key, RoutePath.key, hlower, Text.splitOnce?_append hcolon]
    rfl
  · rw [Route.key, RoutePath.key, RoutePath.key, Route.normalPath, hnormal]

/-- Where routes are missing every one of them is declared, and nothing else. -/
theorem drift_declared (policy : Policy) (h : Located t spec) (hw : spec.literal.Nested t)
    (hcut : spec.Undivided t) (hopen : PathsOpen t spec)
    (hinline : ∀ r ∈ Route.all (.of t), r.key ∈ spec.driftKeys (.of t) policy →
      ∀ paths ∈ spec.paths? t, ∀ e ∈ paths.entries, RoutePath.normalize e.key = r.normalPath →
        (e.object? t).isSome = true) :
    (spec.driftKeys (.of t) policy = [] → injectDrift policy t = none) ∧
    (spec.driftKeys (.of t) policy ≠ [] → ∃ out spec', injectDrift policy t = some out ∧
      find? (.of out) = some spec' ∧ spec'.name = spec.name ∧ spec'.declaredAt = spec.declaredAt ∧
      (spec'.operationKeys out).Perm (spec.operationKeys t ++ spec.driftKeys (.of t) policy)) := by
  obtain ⟨n, hread⟩ := h.exists_readAt?
  obtain ⟨start, v, p, hstart, ⟨o, hlocated, rfl⟩, hroom, hkeys, hplace⟩ :=
    exists_ensurePaths h (outlined hw hread hcut) hopen
  obtain ⟨m, hreadStart⟩ := hlocated.exists_readAt?
  have hdrift : Spec.driftKeys ⟨spec.name, spec.declaredAt, o⟩ (.of start) policy =
      spec.driftKeys (.of t) policy := by
    rw [driftKeys_eq, driftKeys_eq, hopen.calls start hstart, operationKeys_source hreadStart,
      all_of_paths hroom.value, hkeys]
  obtain ⟨out, written, v, q, hout, hwritten, ⟨o', hlocated', rfl⟩, hroom', hperm⟩ :=
    exists_declareOperations policy ⟨o, hlocated, rfl⟩ hroom fun key hkey => by
      obtain ⟨r, hr, rfl, hsplit, hkey', hop⟩ := exists_of_mem_driftKeys hkey
      exact ⟨r.method, r.normalPath, hsplit, hkey', hop, hplace _ (hinline r hr hkey)⟩
  have hinject : injectDrift policy t = if written then some out else none := by
    rw [injectDrift, hstart]
    simp only [Option.bind_eq_bind, Option.bind_some, specOf?, hlocated.found, hdrift, hout]
    rfl
  rw [hinject, hwritten]
  refine ⟨fun hnil => by rw [hnil]; rfl, fun hne => ?_⟩
  obtain ⟨k, hreadOut⟩ := hlocated'.exists_readAt?
  refine ⟨out, _, by simp [hne], hlocated'.found, rfl, rfl, ?_⟩
  rw [operationKeys_source hreadOut, all_of_paths hroom'.value, ← hkeys]
  exact hperm

/-- A service with a path that lacks an operation, and an operation that lacks a path. -/
def growing : Text :=
  "const s=\x7bopenapi:3,paths:\x7b'/a/:id':\x7bget:\x7b\x7d\x7d\x7d\x7d;app.put('/a/:id',h);app.post('/b',h)".toList

def growingSpec : Spec :=
  ⟨['s'], 0, ⟨8, 44, [⟨"openapi".toList, 9, 17, 18⟩, ⟨"paths".toList, 19, 25, 44⟩]⟩⟩

set_option maxRecDepth 2000 in
theorem drift_declared_growing : growingSpec.driftKeys (.of growing) .default =
      ["post:/b".toList, "put:/a/\x7bid\x7d".toList] ∧
    ∃ out spec', injectDrift .default growing = some out ∧ find? (.of out) = some spec' ∧
    spec'.name = ['s'] ∧
      spec'.declaredAt = 0 ∧ (spec'.operationKeys out).Perm
        ["get:/a/\x7bid\x7d".toList, "post:/b".toList, "put:/a/\x7bid\x7d".toList] := by
  have hchars : growing = _ := String.toList_ofList
  have hnested : growingSpec.literal.Nested growing := by
    have hbody : ∃ gs,
        WellNested 9 ("openapi:3,paths:".toList ++ '\x7b' :: (('\'' :: ("/a/:id".toList ++ '\'' ::
        (":".toList ++ '\x7b' :: (("get:".toList ++ '\x7b' :: ([] ++ '\x7d' :: [])) ++ '\x7d' ::
          [])))) ++
          '\x7d' :: [])) gs :=
      ⟨_, .characters (by decide)
        (.group .brace (.quoted (.inl rfl) (quotedBody_of_notMem (by decide) (by decide))
        (.characters (by decide)
          (.group .brace (.characters (by decide) (.group .brace .nil .nil)) .nil))) .nil)⟩
    exact ⟨9, hbody⟩
  have hspec : find? (.of growing) = some growingSpec ∧ Foremost growing growingSpec ∧
      growingSpec.Undivided growing ∧ PathsOpen growing growingSpec := by
    rw [hchars]
    decide
  have hdrift : growingSpec.operationKeys growing = ["get:/a/\x7bid\x7d".toList] ∧
      growingSpec.driftKeys (.of growing) .default = ["post:/b".toList,
        "put:/a/\x7bid\x7d".toList] := by
    rw [hchars]
    decide
  have hinline : ∀ r ∈ Route.all (.of growing),
      r.key ∈ growingSpec.driftKeys (.of growing) .default →
      ∀ paths ∈ growingSpec.paths? growing, ∀ e ∈ paths.entries,
      RoutePath.normalize e.key = r.normalPath →
        (e.object? growing).isSome = true := by
    rw [hchars]
    decide
  obtain ⟨hfound, hforemost, hcut, hopen⟩ := hspec
  obtain ⟨hkeys, hdrift⟩ := hdrift
  obtain ⟨out, spec', hout, hspec', hname, hdeclared, hperm⟩ :=
    (drift_declared .default ⟨hfound, hforemost⟩ hnested hcut hopen hinline).2
      (hdrift ▸ List.cons_ne_nil _ _)
  rw [hkeys, hdrift] at hperm
  exact ⟨hdrift, out, spec', hout, hspec', hname, hdeclared, hperm⟩

def tornPath : Text :=
  "const s = \x7bopenapi: 3, paths: \x7b'/a': \x7bget: \x7b\x7d, a: \x60$\x7bx, b()\x7d//\x60\x7d\x7d\x7d;\napp.post('/a', h);\n".toList

def tornPathSpec : Spec :=
  ⟨['s'], 0, ⟨10, 65, [⟨"openapi".toList, 11, 20, 21⟩, ⟨"paths".toList, 23, 30, 65⟩]⟩⟩

/-- Where a region divides the path, the operation is written into the template. -/
theorem not_always_added : ¬ ∀ (policy : Policy) (t : Text) (spec : Spec), Located t spec →
    spec.literal.Nested t →
    PathsOpen t spec → (∀ r ∈ Route.all (.of t), r.key ∈ spec.driftKeys (.of t) policy →
      ∀ paths ∈ spec.paths? t,
      ∀ e ∈ paths.entries, RoutePath.normalize e.key = r.normalPath → (e.object? t).isSome = true) →
    ∀ key ∈ spec.driftKeys (.of t) policy, ∃ out spec', injectDrift policy t = some out ∧
      find? (.of out) = some spec' ∧ key ∈ spec'.operationKeys out := by
  intro h
  have hchars : tornPath = _ := String.toList_ofList
  have hnested : tornPathSpec.literal.Nested tornPath := by
    have htemplate : ∃ gs,
        TemplateBody 51 ('$' :: '\x7b' :: (("x, b".toList ++ '(' :: ([] ++ ')' :: [])) ++ '\x7d' ::
        ['/', '/'])) gs :=
      ⟨_, .region (.characters (by decide) (.group .paren .nil .nil))
        (.char (by decide) (by decide) (by decide)
        (.char (by decide) (by decide) (by decide) .nil))⟩
    obtain ⟨gs, htemplate⟩ := htemplate
    have hbody : ∃ gs,
        WellNested 11 ("openapi: 3, paths: ".toList ++ '\x7b' :: (('\'' :: ("/a".toList ++ '\'' ::
        (": ".toList ++ '\x7b' ::
          (("get: ".toList ++ '\x7b' :: ([] ++ '\x7d' :: (", a: ".toList ++ '\x60' ::
          (('$' :: '\x7b' :: (("x, b".toList ++ '(' :: ([] ++ ')' :: [])) ++ '\x7d' ::
            ['/', '/'])) ++
            '\x60' :: [])))) ++ '\x7d' :: [])))) ++ '\x7d' :: [])) gs :=
      ⟨_, .characters (by decide)
        (.group .brace (.quoted (.inl rfl) (quotedBody_of_notMem (by decide) (by decide))
        (.characters (by decide) (.group .brace (.characters (by decide) (.group .brace .nil
          (.characters (by decide) (.template htemplate .nil)))) .nil))) .nil)⟩
    exact ⟨11, hbody⟩
  have hspec : find? (.of tornPath) = some tornPathSpec ∧ Foremost tornPath tornPathSpec ∧
      PathsOpen tornPath tornPathSpec := by
    rw [hchars]
    decide +kernel
  have hinline : ∀ r ∈ Route.all (.of tornPath),
      r.key ∈ tornPathSpec.driftKeys (.of tornPath) .default →
      ∀ paths ∈ tornPathSpec.paths? tornPath, ∀ e ∈ paths.entries,
      RoutePath.normalize e.key = r.normalPath →
        (e.object? tornPath).isSome = true := by
    rw [hchars]
    decide +kernel
  have hmissing : "post:/a".toList ∈ tornPathSpec.driftKeys (.of tornPath) .default ∧
      ∀ out ∈ injectDrift .default tornPath, ∀ spec ∈ find? (.of out),
        "post:/a".toList ∉ spec.operationKeys out := by
    rw [hchars]
    decide +kernel
  obtain ⟨out, spec, hout, hspec', hmem⟩ :=
    h .default tornPath tornPathSpec ⟨hspec.1, hspec.2.1⟩ hnested hspec.2.2
    hinline _ hmissing.1
  exact hmissing.2 out hout spec hspec' hmem

end Repair

end ServiceGate
