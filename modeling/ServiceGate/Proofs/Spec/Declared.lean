/-
# The declared specification is read back

What the specification is written from, as entries: the responses and the request body of an
operation (`operationEntries`), the operations of a path, the paths, the schemas.  `get?_of_forall₂`
finds in a literal that was read the entry of each key that was written, so every level is read in
place from the one around it.

The declaration that is written for some routes holds one literal, `specObject`.  What is read from
that literal, wherever the declaration stands, are the operations it was written for, none of them
without a request body it should have or without responses (`forall₂_operations`), and the schemas
(`schemaNames_eq`).
-/
import ServiceGate.Proofs.ObjectLiteral.Layout
import ServiceGate.Proofs.Route.Written
import ServiceGate.Repair.Specification

namespace ServiceGate

section

open Scan

variable {policy : Policy} {method path schema t out : Text}

/-- In a literal that was read the first entry of a key is that of the first pair of the key. -/
theorem get?_of_forall₂ {o : ObjectLiteral} {kvs : List (Text × Text)} (key : Text)
    {kv : Text × Text} (h : List.Forall₂ (EntryOf out) o.entries kvs)
    (hfind : kvs.find? (·.1 == key) = some kv) : ∃ e, o.get? key = some e ∧ EntryOf out e kv := by
  rw [ObjectLiteral.get?]
  generalize o.entries = entries at h
  induction h with
  | nil => cases hfind
  | @cons e kv' entries kvs hentry _ ih =>
      by_cases hkey : kv'.1 = key
      · rw [List.find?_cons_of_pos (by simpa using hkey)] at hfind
        rw [List.find?_cons_of_pos (by rw [hentry.1]; simpa using hkey)]
        obtain rfl := Option.some.inj hfind
        exact ⟨e, rfl, hentry⟩
      · rw [List.find?_cons_of_neg (by simpa using hkey)] at hfind
        rw [List.find?_cons_of_neg (by rw [hentry.1]; simpa using hkey)]
        exact ih hfind

/-! ## Plain texts in quotes -/

/-- A text in which nothing has to be escaped. -/
def IsPlainText (t : Text) : Prop := t.flatMap Quoted.escape = t

instance (t : Text) : Decidable (IsPlainText t) :=
  inferInstanceAs (Decidable (t.flatMap Quoted.escape = t))

theorem encode_plain (h : IsPlainText t) : Quoted.encode t = '\'' :: t ++ ['\''] := by
  rw [Quoted.encode, show t.flatMap Quoted.escape = t from h]

theorem IsPlainText.append {u : Text} (ht : IsPlainText t) (hu : IsPlainText u) :
    IsPlainText (t ++ u) := by
  rw [IsPlainText, List.flatMap_append, show t.flatMap Quoted.escape = t from ht,
    show u.flatMap Quoted.escape = u from hu]

theorem isPlainText_name (h : ∀ c ∈ t, CharClass.isName c = true) : IsPlainText t := by
  induction t with
  | nil => rfl
  | cons c t ih =>
      obtain ⟨hc, ht⟩ := List.forall_mem_cons.mp h
      have hesc : Quoted.escape c = [c] := by
        rw [Quoted.escape, if_neg]
        simp only [Bool.or_eq_true, beq_iff_eq, not_or]
        exact ⟨CharClass.isName_ne hc (by decide), CharClass.isName_ne hc (by decide)⟩
      rw [IsPlainText, List.flatMap_cons, hesc, show t.flatMap Quoted.escape = t from ih ht]
      rfl

instance (t : Text) : Decidable (IsKeyName t) :=
  decidable_of_iff (t ≠ [] ∧ ∀ c ∈ t, CharClass.isName c = true)
    ⟨fun h => ⟨h.1, h.2⟩, fun h => ⟨h.1, h.2⟩⟩

def named (key : Text) (hkey : IsKeyName key) {value : Text} (hvalue : IsValue value) : Entry :=
  ⟨key, key, value, item_name hkey hvalue⟩

def quotedEntry (key : Text) {value : Text} (hvalue : IsValue value) : Entry :=
  ⟨Quoted.encode key, key, value, item_encode key hvalue⟩

/-! ## The responses -/

theorem isPlainText_defaultResponses :
    ∀ x ∈ Spec.defaultResponses policy method path,
      IsPlainText x.1.toList ∧ IsPlainText x.2.toList := by
  have hall : ∀ x ∈ [("200", "Successful response"), ("400", "Validation error"),
      ("201", "Created"), ("200", "Updated"), ("204", "Deleted"), ("404", "Not found")],
      IsPlainText x.1.toList ∧ IsPlainText x.2.toList := by decide
  intro x hx
  refine hall x ?_
  rw [Spec.defaultResponses] at hx
  split_ifs at hx <;> simp only [List.mem_append, List.mem_cons, List.not_mem_nil, or_false]
    at hx ⊢ <;>
    tauto

theorem defaultResponses_ne_nil : Spec.defaultResponses policy method path ≠ [] := by
  rw [Spec.defaultResponses]
  split_ifs <;> exact List.cons_ne_nil _ _

def descriptionEntry (meaning : String) : Entry :=
  named "description".toList (by decide) (isValue_encode meaning.toList)

def responseEntry (x : String × String) : Entry :=
  quotedEntry x.1.toList (isObject_braced [descriptionEntry x.2] (List.cons_ne_nil _ _)).isValue

def responseEntries (policy : Policy) (method path : Text) : List Entry :=
  (Spec.defaultResponses policy method path).map responseEntry

theorem responseEntries_ne_nil : responseEntries policy method path ≠ [] := fun h =>
  defaultResponses_ne_nil (List.map_eq_nil_iff.mp h)

theorem renderResponses_eq :
    Spec.renderResponses policy method path =
      Spec.braced ((responseEntries policy method path).map (·.text)) := by
  rw [Spec.renderResponses, responseEntries, List.map_map]
  congr 1
  refine List.map_congr_left fun x hx => ?_
  obtain ⟨hcode, hmeaning⟩ := isPlainText_defaultResponses x hx
  show Spec.entry _ _ = Spec.entry (Quoted.encode x.1.toList)
    (Spec.braced [Spec.entry "description".toList (Quoted.encode x.2.toList)])
  rw [encode_plain hcode, encode_plain hmeaning]

/-! ## The request body -/

theorem isValue_true : IsValue "true".toList :=
  ⟨.ofSoft (by decide), ⟨'t', "rue".toList, by decide, by decide⟩,
    ⟨"tru".toList, 'e', by decide, by decide⟩⟩

def refEntry (schema : Text) : Entry :=
  named "$ref".toList (by decide) (isValue_encode ("#/components/schemas/".toList ++ schema))

def schemaEntry (schema : Text) : Entry :=
  named "schema".toList (by decide)
    (isObject_braced [refEntry schema] (List.cons_ne_nil _ _)).isValue

def mediaEntry (schema : Text) : Entry :=
  quotedEntry "application/json".toList
    (isObject_braced [schemaEntry schema] (List.cons_ne_nil _ _)).isValue

def requestEntries (schema : Text) : List Entry :=
  [named "required".toList (by decide) isValue_true,
    named "content".toList (by decide)
      (isObject_braced [mediaEntry schema] (List.cons_ne_nil _ _)).isValue]

theorem renderRequestBody_eq (h : IsKeyName schema) :
    Spec.renderRequestBody schema = Spec.braced ((requestEntries schema).map (·.text)) := by
  have hplain : IsPlainText ("#/components/schemas/".toList ++ schema) :=
    .append (by decide) (isPlainText_name h.chars)
  have hmedia : Quoted.encode "application/json".toList = "'application/json'".toList := by decide
  have href : "'#/components/schemas/".toList ++ schema ++ ['\''] =
      Quoted.encode ("#/components/schemas/".toList ++ schema) := by
    rw [encode_plain hplain]
    rfl
  rw [Spec.renderRequestBody, href, ← hmedia]
  rfl

/-! ## The operations -/

def operationEntries (policy : Policy) (method path : Text) : List Entry :=
  named "summary".toList (by decide) (isValue_encode (Spec.summary policy method path)) ::
    (((Spec.expectedSchema? policy method path).map fun schema =>
      named "requestBody".toList (by decide)
        (isObject_braced (requestEntries schema) (List.cons_ne_nil _ _)).isValue).toList ++
    [named "responses".toList (by decide)
      (isObject_braced (responseEntries policy method path) responseEntries_ne_nil).isValue])

theorem operationEntries_ne_nil : operationEntries policy method path ≠ [] := List.cons_ne_nil _ _

theorem renderOperation_eq
    (h : ∀ schema, Spec.expectedSchema? policy method path = some schema → IsKeyName schema) :
    Spec.renderOperation policy method path =
      Spec.braced ((operationEntries policy method path).map (·.text)) := by
  rw [Spec.renderOperation, operationEntries, renderResponses_eq]
  cases hschema : Spec.expectedSchema? policy method path with
  | none => rfl
  | some schema =>
      rw [Option.map_some, renderRequestBody_eq (h schema hschema)]
      rfl

theorem isObject_renderOperation
    (h : ∀ schema, Spec.expectedSchema? policy method path = some schema → IsKeyName schema) :
    IsObject (Spec.renderOperation policy method path)
      ((operationEntries policy method path).map (·.pair)) := by
  rw [renderOperation_eq h]
  exact isObject_braced _ operationEntries_ne_nil

/-- The literal of an operation, read where it was written, lacks neither a request body that is
expected nor responses. -/
theorem object?_renderOperation {e : ObjectEntry} {key : Text}
    (h : ∀ schema, Spec.expectedSchema? policy method path = some schema → IsKeyName schema)
    (he : EntryOf out e (key, Spec.renderOperation policy method path)) :
    ∃ o, e.object? out = some o ∧
      ((Spec.expectedSchema? policy method path).isSome = true →
        o.hasKey "requestBody".toList = true) ∧
      ∃ e responses, o.get? "responses".toList = some e ∧ e.object? out = some responses ∧
        responses.entries ≠ [] := by
  obtain ⟨o, ho, hentries⟩ := (isObject_renderOperation h).object? he
  refine ⟨o, ho, fun hschema => ?_, ?_⟩
  · obtain ⟨schema, hs⟩ := Option.isSome_iff_exists.mp hschema
    rw [operationEntries, hs] at hentries
    obtain ⟨e, he, -⟩ := get?_of_forall₂ "requestBody".toList hentries rfl
    rw [ObjectLiteral.hasKey, he]
    rfl
  · have hfind : ((operationEntries policy method path).map (·.pair)).find?
        (·.1 == "responses".toList) =
        some ("responses".toList,
          Spec.braced ((responseEntries policy method path).map (·.text))) := by
      rw [operationEntries]
      cases Spec.expectedSchema? policy method path with
      | none => rfl
      | some schema => rfl
    obtain ⟨e, he, hentry⟩ := get?_of_forall₂ _ hentries hfind
    obtain ⟨responses, hresponses, hresponseEntries⟩ :=
      (isObject_braced _ responseEntries_ne_nil).object? hentry
    refine ⟨e, responses, he, hresponses, fun hnil => ?_⟩
    rw [hnil] at hresponseEntries
    have hlength := hresponseEntries.length_eq
    rw [List.length_map] at hlength
    exact responseEntries_ne_nil (List.length_eq_zero_iff.mp hlength.symm)

end

variable {α β γ : Type} {policy : Policy} {path method out : Text}

/-! ## Lists of equal length -/

theorem forall₂_imp_mem {R S : α → β → Prop} {as : List α} {bs : List β}
    (h : List.Forall₂ R as bs) (himp : ∀ a, ∀ b ∈ bs, R a b → S a b) : List.Forall₂ S as bs := by
  induction h with
  | nil => exact .nil
  | @cons a b as bs hab _ ih =>
      exact .cons (himp a b List.mem_cons_self hab)
        (ih fun a b hb => himp a b (List.mem_cons_of_mem _ hb))

theorem forall₂_filterMap {R : γ → β → Prop} {f : α → Option γ} {as : List α} {bs : List β}
    (h : List.Forall₂ (fun a b => ∃ c, f a = some c ∧ R c b) as bs) :
    List.Forall₂ R (as.filterMap f) bs := by
  induction h with
  | nil => exact .nil
  | cons hab _ ih =>
      obtain ⟨c, hc, hR⟩ := hab
      rw [List.filterMap_cons_some hc]
      exact .cons hR ih

theorem map_eq_of_forall₂ {R : α → β → Prop} {f : α → γ} {g : β → γ} {as : List α} {bs : List β}
    (h : List.Forall₂ R as bs) (himp : ∀ a b, R a b → f a = g b) : as.map f = bs.map g := by
  induction h with
  | nil => rfl
  | cons hab _ ih => rw [List.map_cons, List.map_cons, himp _ _ hab, ih]

theorem exists_of_mem_forall₂ {R : α → β → Prop} {as : List α} {bs : List β} {a : α}
    (h : List.Forall₂ R as bs) (ha : a ∈ as) : ∃ b ∈ bs, R a b := by
  induction h with
  | nil => cases ha
  | @cons a' b as bs hab _ ih =>
      rcases List.mem_cons.mp ha with rfl | ha
      · exact ⟨b, List.mem_cons_self, hab⟩
      · obtain ⟨b', hb', hR⟩ := ih ha
        exact ⟨b', List.mem_cons_of_mem b hb', hR⟩

/-! ## The literals of a declaration -/

namespace Spec

def pathObject (policy : Policy) (path : Text) (methods : List Text) : Text :=
  lined "      ".toList "    ".toList
    (methods.map fun method => entry method (renderOperation policy method path))

def pathsObject (policy : Policy) (paths : List (Text × List Text)) : Text :=
  lined "    ".toList "  ".toList
    (paths.map fun x => entry (Quoted.encode x.1) (pathObject policy x.1 x.2))

def schemaObject : Text := "\x7b type: 'object' \x7d".toList

def schemasObject (names : List Text) : Text :=
  lined "      ".toList "    ".toList (names.map fun name => entry name schemaObject)

def componentsObject (names : List Text) : Text :=
  lined "    ".toList "  ".toList
    ([("schemas".toList, schemasObject names)].map fun x => entry x.1 x.2)

def specFields (policy : Policy) (paths : List (Text × List Text)) (names : List Text) :
    List (Text × Text) :=
  [("openapi".toList, "'3.0.0'".toList),
    ("info".toList, "\x7b title: 'API', version: '1.0.0' \x7d".toList),
    ("paths".toList, pathsObject policy paths),
    ("components".toList, componentsObject names)]

def specObject (policy : Policy) (paths : List (Text × List Text)) (names : List Text) : Text :=
  lined "  ".toList [] ((specFields policy paths names).map fun x => entry x.1 x.2)

theorem pathLines_eq (path : Text) (methods : List Text) :
    Repair.pathLines policy path methods =
      line "    ".toList (entry (Quoted.encode path) (pathObject policy path methods)) := by
  unfold Repair.pathLines pathObject lined line
  rw [List.flatMap_map]
  generalize methods.flatMap _ = lines
  simp [entry]

theorem schemaLine_eq (name : Text) :
    Repair.schemaLine name = line "      ".toList (entry name schemaObject) := by
  have htext : "\x7b type: 'object' \x7d,\n".toList = schemaObject ++ ",\n".toList := by
    decide
  unfold Repair.schemaLine line
  rw [htext]
  unfold entry
  simp only [List.append_assoc]

/-- The text up to the lines of the paths. -/
theorem specHead_eq :
    "const ".toList ++ Repair.specName ++
      " = \x7b\n  openapi: '3.0.0',\n  info: \x7b title: 'API', version: '1.0.0' \x7d,\n  paths: \x7b\n".toList =
    "const openApiSpec = ".toList ++ ('\x7b' :: ['\n']) ++
      line "  ".toList (entry "openapi".toList "'3.0.0'".toList) ++
      line "  ".toList (entry "info".toList "\x7b title: 'API', version: '1.0.0' \x7d".toList) ++
      "  ".toList ++ "paths".toList ++ ": ".toList ++ ('\x7b' :: ['\n']) := by
  decide

/-- The text between the lines of the paths and those of the schemas. -/
theorem specMiddle_eq :
    "  \x7d,\n  components: \x7b\n    schemas: \x7b\n".toList =
    "  ".toList ++ ['\x7d'] ++ ",\n".toList ++ "  ".toList ++ "components".toList ++ ": ".toList ++
      ('\x7b' :: ['\n']) ++ "    ".toList ++ "schemas".toList ++ ": ".toList ++
      ('\x7b' :: ['\n']) := by
  decide

/-- The text behind the lines of the schemas. -/
theorem specTail_eq :
    "    \x7d,\n  \x7d,\n\x7d;".toList =
    "    ".toList ++ ['\x7d'] ++ ",\n".toList ++ "  ".toList ++ ['\x7d'] ++ ",\n".toList ++
      ['\x7d'] ++ ";".toList := by
  decide

theorem specFor_eq (routes : List Route) :
    Repair.specFor policy routes =
      "const openApiSpec = ".toList ++
        specObject policy (Repair.methodsByPath routes) (Repair.schemasOf policy routes) ++
        ";".toList := by
  have hschemas : (Repair.schemasOf policy routes).flatMap Repair.schemaLine =
      ((Repair.schemasOf policy routes).map fun name => entry name schemaObject).flatMap
        (line "      ".toList) := by
    rw [List.flatMap_map]
    exact congrArg (List.flatMap · _) (funext schemaLine_eq)
  have hpaths : (Repair.methodsByPath routes).flatMap (fun x => Repair.pathLines policy x.1 x.2) =
      ((Repair.methodsByPath routes).map fun x =>
        entry (Quoted.encode x.1) (pathObject policy x.1 x.2)).flatMap (line "    ".toList) := by
    rw [List.flatMap_map]
    exact congrArg (List.flatMap · _) (funext fun x => pathLines_eq x.1 x.2)
  -- part by part: a rewrite would compare the literals of the parts with one another
  refine (congrArg₂ (· ++ ·) (congrArg₂ (· ++ ·) (congrArg₂ (· ++ ·) (congrArg₂ (· ++ ·)
    specHead_eq hpaths) specMiddle_eq) hschemas) specTail_eq).trans ?_
  simp only [specObject, specFields, pathsObject, componentsObject, schemasObject, lined]
  simp only [List.map_cons, List.map_nil, List.flatMap_cons, List.flatMap_nil, entry, line,
    List.append_assoc, List.cons_append, List.nil_append, List.append_nil]

/-! ## The literals are object literals -/

/-- An operation that can be written and read back. -/
structure Declarable (policy : Policy) (path method : Text) : Prop where
  isNormal : RoutePath.normalize path = path
  isMethod : method ∈ Route.methodWords
  isSchema : ∀ schema, expectedSchema? policy method path = some schema → IsKeyName schema

variable {paths : List (Text × List Text)} {names methods : List Text}

theorem isKeyName_of_mem_methodWords : ∀ m ∈ Route.methodWords, IsKeyName m := by decide

theorem isObject_pathObject (h : ∀ m ∈ methods, Declarable policy path m) :
    IsObject (pathObject policy path methods)
      (methods.map fun m => (m, renderOperation policy m path)) :=
  isObject_lined id id (by decide) (by decide) fun m hm =>
    item_name (isKeyName_of_mem_methodWords m (h m hm).isMethod)
      (isObject_renderOperation (h m hm).isSchema).isValue

theorem isObject_pathsObject (h : ∀ x ∈ paths, ∀ m ∈ x.2, Declarable policy x.1 m) :
    IsObject (pathsObject policy paths) (paths.map fun x => (x.1, pathObject policy x.1 x.2)) :=
  isObject_lined _ _ (by decide) (by decide) fun x hx =>
    item_encode x.1 (isObject_pathObject (h x hx)).isValue

theorem isValue_schemaObject : IsValue schemaObject := by
  have hobject := isObject_braced _ (List.cons_ne_nil
    (named "type".toList (by decide) (isValue_encode "object".toList)) [])
  exact hobject.isValue

theorem isObject_schemasObject (h : ∀ name ∈ names, IsKeyName name) :
    IsObject (schemasObject names) (names.map fun name => (name, schemaObject)) :=
  isObject_lined id id (by decide) (by decide) fun name hname =>
    item_name (h name hname) isValue_schemaObject

theorem isObject_componentsObject (h : ∀ name ∈ names, IsKeyName name) :
    IsObject (componentsObject names) [("schemas".toList, schemasObject names)] := by
  have hkey : IsKeyName "schemas".toList := by decide
  have hindent : Blank "    ".toList := by decide
  have houter : Blank "  ".toList := by decide
  have hitems : ∀ x ∈ [("schemas".toList, schemasObject names)], Item x.1 x.1 x.2 :=
    List.forall_mem_singleton.mpr (item_name hkey (isObject_schemasObject h).isValue)
  exact isObject_lined _ _ hindent houter hitems

theorem isValue_info : IsValue "\x7b title: 'API', version: '1.0.0' \x7d".toList := by
  have hobject := isObject_braced _ (List.cons_ne_nil
    (named "title".toList (by decide) (isValue_encode "API".toList))
    [named "version".toList (by decide) (isValue_encode "1.0.0".toList)])
  exact hobject.isValue

theorem isObject_specObject (hpaths : ∀ x ∈ paths, ∀ m ∈ x.2, Declarable policy x.1 m)
    (hnames : ∀ name ∈ names, IsKeyName name) :
    IsObject (specObject policy paths names) (specFields policy paths names) := by
  have hfields : ∀ x ∈ specFields policy paths names, Item x.1 x.1 x.2 := by
    simp only [specFields, List.forall_mem_cons, List.not_mem_nil, false_imp_iff, implies_true,
      and_true]
    exact ⟨item_name (by decide) (isValue_encode "3.0.0".toList),
      item_name (by decide) isValue_info,
      item_name (by decide) (isObject_pathsObject hpaths).isValue,
      item_name (by decide) (isObject_componentsObject hnames).isValue⟩
  have hindent : Blank "  ".toList := by decide
  have houter : Blank [] := by decide
  have hobject := isObject_lined _ _ hindent houter hfields
  rwa [List.map_id'] at hobject

/-! ## What is read of them -/

/-- What is read of an operation that was written. -/
structure OperationOf (policy : Policy) (out : Text) (o : SpecOperation) (x : Text × Text) :
    Prop where
  path : o.path = x.1
  method : o.method = x.2
  requestBody : lacksRequestBody policy o = false
  responses : lacksResponses out o = false

theorem exists_operation? {e : ObjectEntry} (h : Declarable policy path method)
    (he : EntryOf out e (method, renderOperation policy method path)) :
    ∃ o, operation? out path e = some o ∧ OperationOf policy out o (path, method) := by
  have hwords : ∀ m ∈ Route.methodWords, m.lower = m ∧ Spec.methods.contains m = true := by
    decide
  obtain ⟨hlower, hmethod⟩ := hwords method h.isMethod
  obtain ⟨o, ho, hbody, r, responses, hr, hresponses, hne⟩ := object?_renderOperation h.isSchema he
  have hkey : e.key = method := he.1
  refine ⟨⟨path, method, e.keyAt, some o⟩, ?_, rfl, rfl, ?_, ?_⟩
  · rw [operation?, hkey, hlower, if_pos hmethod, h.isNormal, ho]
  · rw [lacksRequestBody]
    cases hschema : (expectedSchema? policy method path).isSome with
    | false => rw [Bool.and_false, Bool.false_and]
    | true => rw [Option.any_some, hbody hschema, Bool.not_true, Bool.and_false]
  · simp only [lacksResponses, hr, hresponses, Option.any_some]
    simpa using hne

/-- What is read from the declaration are the operations it was written for, with all that is asked
of them. -/
theorem forall₂_operations {spec : Spec} (hpaths : ∀ x ∈ paths, ∀ m ∈ x.2, Declarable policy x.1 m)
    (h : List.Forall₂ (EntryOf out) spec.literal.entries (specFields policy paths names)) :
    List.Forall₂ (OperationOf policy out) (spec.operations out)
      (paths.flatMap fun x => x.2.map fun m => (x.1, m)) := by
  obtain ⟨e, he, hentry⟩ := get?_of_forall₂ "paths".toList h rfl
  obtain ⟨o, ho, hitems⟩ := (isObject_pathsObject hpaths).object? hentry
  have hread : spec.paths? out = some o := by rw [paths?, he, Option.bind_some, ho]
  rw [operations, hread]
  rw [List.forall₂_map_right_iff] at hitems
  -- one path at a time, and of each the methods one at a time
  refine List.rel_flatMap (R := fun e x => x ∈ paths ∧
    EntryOf out e (x.1, pathObject policy x.1 x.2))
    (forall₂_imp_mem hitems fun _ _ hx he => ⟨hx, he⟩) ?_
  rintro e x ⟨hx, he⟩
  have hmethods := hpaths x hx
  obtain ⟨item, hitem, hentries⟩ := (isObject_pathObject hmethods).object? he
  have hkey : e.key = x.1 := he.1
  rw [operationsOfPath, hitem, hkey, List.forall₂_map_right_iff]
  rw [List.forall₂_map_right_iff] at hentries
  exact forall₂_filterMap (forall₂_imp_mem hentries fun _ m hm he =>
    exists_operation? (hmethods m hm) he)

/-- What is read from the declaration are the schemas it was written for. -/
theorem schemaNames_eq {spec : Spec} (hnames : ∀ name ∈ names, IsKeyName name)
    (h : List.Forall₂ (EntryOf out) spec.literal.entries (specFields policy paths names)) :
    spec.schemaNames out = names := by
  obtain ⟨e, he, hentry⟩ := get?_of_forall₂ "components".toList h rfl
  obtain ⟨components, hc, hfields⟩ := (isObject_componentsObject hnames).object? hentry
  obtain ⟨e', he', hentry'⟩ := get?_of_forall₂ "schemas".toList hfields rfl
  obtain ⟨schemas, hs, hitems⟩ := (isObject_schemasObject hnames).object? hentry'
  have hread : spec.schemas? out = some schemas := by
    rw [schemas?, he, Option.bind_some, hc, Option.bind_some, he', Option.bind_some, hs]
  rw [schemaNames, hread, Option.map_some, Option.getD_some, ObjectLiteral.keys]
  rw [map_eq_of_forall₂ (g := Prod.fst) hitems fun _ _ he => he.1, List.map_map]
  exact List.map_id names

end Spec

end ServiceGate
