/-
# A specification made from the routes

The declaration written for the routes of a text names exactly their operations and the schemas they
ask for (`mem_operations`, `mem_schemasOf`), so what is read back from it is complete and exact
(`synthesizeSpec_readBack`).  Paths may contain any ASCII characters.  Beyond ASCII the upper-case
form of a letter can be one that no plain key contains, and then a schema is not read back.

The paths and their methods are gathered route by route, so `mem_operations` is an induction on the
routes with what was gathered so far as the state (`mem_addMethod`, `mem_foldl`).  Reading back is a
matter of what was written: a path is a quoted key, whatever characters it has, and everything else
is solid text.
-/
import ServiceGate.Proofs.Spec.Declared

namespace ServiceGate

variable {policy : Policy} {method path t : Text} {routes : List Route}

/-! ## Names of schemas -/

/-- A text of ASCII characters. -/
def IsAscii (t : Text) : Prop := ∀ c ∈ t, c.toNat < 128

instance (t : Text) : Decidable (IsAscii t) :=
  inferInstanceAs (Decidable (∀ c ∈ t, c.toNat < 128))

namespace Resource

theorem mem_singular {word : Text} {c : Char} (h : c ∈ singular word) : c ∈ word ∨ c = 'y' := by
  have hdrop : ∀ {n : Nat}, c ∈ dropEnd n word → c ∈ word := List.mem_of_mem_take
  simp only [singular] at h
  split_ifs at h
  · rcases List.mem_append.mp h with h | h
    · exact .inl (hdrop h)
    · exact .inr (List.mem_singleton.mp h)
  · exact .inl (hdrop h)
  · exact .inl (hdrop h)
  · exact .inl h

theorem isName_of_mem_upperChar {c d : Char} (hc : c.toNat < 128)
    (halnum : CharClass.isAlphanumeric c = true) (hd : d ∈ LetterCase.upperChar c) :
    CharClass.isName d = true := by
  have hall : ∀ n < 128, CharClass.isAlphanumeric (Char.ofNat n) = true →
      ∀ d ∈ LetterCase.upperChar (Char.ofNat n), CharClass.isName d = true := by decide
  have h := hall c.toNat hc
  rw [Char.ofNat_toNat] at h
  exact h halnum d hd

theorem exists_of_mem_pascalCase {word : Text} {c : Char} (h : c ∈ pascalCase word) :
    ∃ d ∈ word, CharClass.isAlphanumeric d = true ∧ (c = d ∨ c ∈ LetterCase.upperChar d) := by
  obtain ⟨piece, hpiece, hc⟩ := List.mem_flatMap.mp h
  have hchars : ∀ d ∈ piece, d ∈ word ∧ CharClass.isAlphanumeric d = true := fun d hd => by
    obtain ⟨hmem, hsep⟩ := RoutePath.mem_of_mem_splitWhere (List.mem_filter.mp hpiece).1 hd
    exact ⟨hmem, by simpa using hsep⟩
  cases piece with
  | nil => cases hc
  | cons d piece =>
      rcases List.mem_append.mp hc with hc | hc
      · obtain ⟨hmem, halnum⟩ := hchars d List.mem_cons_self
        exact ⟨d, hmem, halnum, .inr hc⟩
      · obtain ⟨hmem, halnum⟩ := hchars c (List.mem_cons_of_mem d hc)
        exact ⟨c, hmem, halnum, .inl rfl⟩

theorem isName_of_mem_pascalCase {word : Text} {c : Char} (hword : IsAscii word)
    (h : c ∈ pascalCase word) : CharClass.isName c = true := by
  obtain ⟨d, hd, halnum, hc⟩ := exists_of_mem_pascalCase h
  rcases hc with rfl | hc
  · rw [CharClass.isName, halnum]
    rfl
  · exact isName_of_mem_upperChar (hword d hd) halnum hc

theorem isKeyName_of_ofPath? {resource : Text} (hpath : IsAscii path)
    (h : ofPath? (RoutePath.normalize path) = some resource) : IsKeyName resource := by
  rw [ofPath?] at h
  cases hsegment : RoutePath.lastStatic? (RoutePath.normalize path) with
  | none => rw [hsegment] at h; cases h
  | some segment =>
      rw [hsegment] at h
      obtain ⟨hne, rfl⟩ : (pascalCase (singular segment)).isEmpty = false ∧
          pascalCase (singular segment) = resource := by simpa using h
      have hascii : IsAscii (singular segment) := fun c hc => by
        rcases mem_singular hc with hc | rfl
        · exact hpath c (RoutePath.mem_of_mem_segments
            (RoutePath.mem_segments_of_lastStatic? hsegment) hc)
        · decide
      exact ⟨by simpa using hne, fun c hc => isName_of_mem_pascalCase hascii hc⟩

end Resource

theorem Spec.isKeyName_of_expectedSchema? {schema : Text} (hpath : IsAscii path)
    (h : Spec.expectedSchema? policy method (RoutePath.normalize path) = some schema) :
    IsKeyName schema := by
  have hlead : ∀ {head resource : Text}, (∀ c ∈ head, CharClass.isName c = true) →
      IsKeyName resource → IsKeyName (head ++ resource) := fun hhead hresource =>
    ⟨fun hnil => hresource.ne_nil (List.append_eq_nil_iff.mp hnil).2, fun c hc =>
      (List.mem_append.mp hc).elim (hhead c) (hresource.chars c)⟩
  rw [Spec.expectedSchema?] at h
  cases hresource : Resource.ofPath? (RoutePath.normalize path) with
  | none =>
      rw [hresource] at h
      split_ifs at h
  | some resource =>
      have hname := Resource.isKeyName_of_ofPath? hpath hresource
      rw [hresource] at h
      simp only at h
      split_ifs at h
      · rw [← Option.some.inj h]
        exact hlead (by decide) hname
      · rw [← Option.some.inj h]
        exact hlead (by decide) hname

theorem Route.key_eq (r : Route) : r.key = RoutePath.key r.method r.normalPath := by
  rw [Route.key, Route.normalPath, RoutePath.key, RoutePath.key, RoutePath.normalize_normalize]

namespace Repair

/-! ## What is declared -/

theorem mem_foldl {α β γ : Type} {f : β → α → β} (mem : γ → β → Prop) (g : α → γ)
    (hstep : ∀ b a x, mem x (f b a) ↔ x = g a ∨ mem x b) (as : List α) (b : β) (x : γ) :
    mem x (as.foldl f b) ↔ mem x b ∨ ∃ a ∈ as, g a = x := by
  induction as generalizing b with
  | nil => simp
  | cons a as ih =>
      rw [List.foldl_cons, ih, hstep]
      simp only [List.exists_mem_cons_iff]
      constructor
      · rintro ((rfl | h) | h)
        · exact .inr (.inl rfl)
        · exact .inl h
        · exact .inr (.inr h)
      · rintro (h | rfl | h)
        · exact .inl (.inr h)
        · exact .inl (.inl rfl)
        · exact .inr h

theorem mem_addOnce {as : List Text} {a b : Text} : b ∈ addOnce as a ↔ b = a ∨ b ∈ as := by
  rw [addOnce]
  split_ifs with h
  · have ha : a ∈ as := by simpa using h
    constructor
    · exact .inr
    · rintro (rfl | hb)
      · exact ha
      · exact hb
  · rw [List.mem_append, List.mem_singleton, or_comm]

/-- The operations that paths with their methods stand for. -/
def operationsOf (paths : List (Text × List Text)) : List (Text × Text) :=
  paths.flatMap fun x => x.2.map fun m => (x.1, m)

theorem mem_addMethod {p m : Text} {x : Text × Text} : ∀ paths : List (Text × List Text),
    x ∈ operationsOf (addMethod p m paths) ↔ x = (p, m) ∨ x ∈ operationsOf paths
  | [] => by simp [addMethod, operationsOf]
  | (q, methods) :: paths => by
      have ih := mem_addMethod (p := p) (m := m) (x := x) paths
      simp only [operationsOf, List.flatMap_cons, List.mem_append, List.mem_map] at ih ⊢
      rw [addMethod]
      split_ifs with hq
      · subst hq
        simp only [List.flatMap_cons, List.mem_append, List.mem_map, mem_addOnce]
        constructor
        · rintro (⟨n, rfl | hn, rfl⟩ | h)
          · exact .inl rfl
          · exact .inr (.inl ⟨n, hn, rfl⟩)
          · exact .inr (.inr h)
        · rintro (rfl | ⟨n, hn, rfl⟩ | h)
          · exact .inl ⟨m, .inl rfl, rfl⟩
          · exact .inl ⟨n, .inr hn, rfl⟩
          · exact .inr h
      · simp only [List.flatMap_cons, List.mem_append, List.mem_map]
        rw [ih]
        exact or_left_comm

/-- The operations that are declared are those of the routes. -/
theorem mem_operations {x : Text × Text} :
    x ∈ operationsOf (methodsByPath routes) ↔ ∃ r ∈ routes, (r.normalPath, r.method) = x := by
  have h := mem_foldl (fun x paths => x ∈ operationsOf paths)
    (fun r : Route => (r.normalPath, r.method))
    (fun paths _ _ => mem_addMethod paths) routes [] x
  rw [methodsByPath, h]
  exact or_iff_right List.not_mem_nil

theorem exists_of_mem_methodsByPath {x : Text × List Text} {m : Text}
    (hx : x ∈ methodsByPath routes) (hm : m ∈ x.2) :
    ∃ r ∈ routes, r.normalPath = x.1 ∧ r.method = m := by
  obtain ⟨r, hr, heq⟩ := mem_operations.mp
    (List.mem_flatMap.mpr ⟨x, hx, List.mem_map_of_mem (f := fun m => (x.1, m)) hm⟩)
  exact ⟨r, hr, (Prod.mk.inj heq).1, (Prod.mk.inj heq).2⟩

/-- The schemas that are declared are those that the routes ask for. -/
theorem mem_schemasOf {name : Text} :
    name ∈ schemasOf policy routes ↔
      ∃ r ∈ routes, Spec.expectedSchema? policy r.method r.normalPath = some name := by
  have h := mem_foldl (f := addOnce) (fun x as => x ∈ as) id (fun _ _ _ => mem_addOnce)
    (routes.filterMap fun r => Spec.expectedSchema? policy r.method r.normalPath) [] name
  rw [schemasOf, h, or_iff_right List.not_mem_nil]
  simp only [id_eq, exists_eq_right, List.mem_filterMap]

/-! ## What is read back -/

/-- The declaration that is written stands in the text, behind something and in front of
something. -/
theorem exists_synthesizeSpec (hroutes : Route.all (.of t) ≠ [])
    (hspec : Spec.find? (.of t) = none) :
    ∃ front back, synthesizeSpec policy t =
      some (front ++ specFor policy
        ((Route.all (.of t)).filter fun r => !policy.isInfraPath r.normalPath) ++ back) := by
  have hguard : ((Spec.find? (.of t)).isSome || (Route.all (.of t)).isEmpty) = false := by
    rw [hspec, Option.isSome_none, Bool.false_or]
    simpa using hroutes
  unfold synthesizeSpec
  simp only [hguard, Bool.false_eq_true, if_false]
  cases specOffset (.of t) with
  | zero => exact ⟨[], "\n\n".toList ++ t, by simp only [List.nil_append, List.append_assoc]⟩
  | succ n =>
      exact ⟨t.before (n + 1) ++ "\n\n".toList, t.after (n + 1), by
        simp only [Text.insertAt, Text.splice, List.append_assoc]⟩

/-- The specification written for a text declares the operation of every route outside of the
infrastructure and the schema that it asks for, and nothing else; no operation lacks a request body
or responses. -/
theorem synthesizeSpec_readBack (policy : Policy) (t : Text) (hroutes : Route.all (.of t) ≠ [])
    (hspec : Spec.find? (.of t) = none) (hascii : ∀ r ∈ Route.all (.of t), IsAscii r.path) :
    ∃ out front back literal,
      synthesizeSpec policy t = some out ∧
      out = front ++ specFor policy
        ((Route.all (.of t)).filter fun r => !policy.isInfraPath r.normalPath) ++ back ∧
      ObjectLiteral.readAt? out (Text.size (front ++ "const openApiSpec = ".toList)) =
        some literal ∧
      ∀ spec : Spec, spec.literal = literal →
        (∀ key, key ∈ spec.operationKeys out ↔
          ∃ r ∈ Route.all (.of t), policy.isInfraPath r.normalPath = false ∧ r.key = key) ∧
        (∀ name, name ∈ spec.schemaNames out ↔
          ∃ r ∈ Route.all (.of t), policy.isInfraPath r.normalPath = false ∧
            Spec.expectedSchema? policy r.method r.normalPath = some name) ∧
        spec.withoutRequestBody out policy = [] ∧ spec.withoutResponses out = [] := by
  obtain ⟨front, back, hout⟩ := exists_synthesizeSpec hroutes hspec
  generalize hkept : ((Route.all (.of t)).filter fun r => !policy.isInfraPath r.normalPath) = kept
    at hout ⊢
  have hmem : ∀ {r}, r ∈ kept ↔ r ∈ Route.all (.of t) ∧
      policy.isInfraPath r.normalPath = false := by
    intro r
    rw [← hkept, List.mem_filter, Bool.not_eq_true']
  have hpaths : ∀ x ∈ methodsByPath kept, ∀ m ∈ x.2, Spec.Declarable policy x.1 m := by
    intro x hx m hm
    obtain ⟨r, hr, hpath, rfl⟩ := exists_of_mem_methodsByPath hx hm
    rw [← hpath]
    exact ⟨RoutePath.normalize_normalize _, Route.method_mem (hmem.mp hr).1, fun schema hschema =>
      Spec.isKeyName_of_expectedSchema? (hascii r (hmem.mp hr).1) hschema⟩
  have hnames : ∀ name ∈ schemasOf policy kept, IsKeyName name := by
    intro name hname
    obtain ⟨r, hr, hschema⟩ := mem_schemasOf.mp hname
    exact Spec.isKeyName_of_expectedSchema? (hascii r (hmem.mp hr).1) hschema
  generalize hwhole : front ++ specFor policy kept ++ back = out at hout
  have hsplit : out = (front ++ "const openApiSpec = ".toList) ++
      Spec.specObject policy (methodsByPath kept) (schemasOf policy kept) ++
      (";".toList ++ back) := by
    rw [← hwhole, Spec.specFor_eq]
    simp only [List.append_assoc]
  obtain ⟨literal, hliteral, hfields⟩ := (Spec.isObject_specObject hpaths hnames).readAt? hsplit
  refine ⟨out, front, back, literal, hout, hwhole.symm, hliteral, ?_⟩
  rintro spec rfl
  have hops : List.Forall₂ (Spec.OperationOf policy out) (spec.operations out)
      (operationsOf (methodsByPath kept)) := Spec.forall₂_operations hpaths hfields
  refine ⟨fun key => ?_, fun name => ?_, ?_, ?_⟩
  · have hkeys : spec.operationKeys out =
        (operationsOf (methodsByPath kept)).map fun x => RoutePath.key x.2 x.1 :=
      map_eq_of_forall₂ hops fun o x h => by rw [SpecOperation.key, h.method, h.path]
    rw [hkeys, List.mem_map]
    constructor
    · rintro ⟨x, hx, rfl⟩
      obtain ⟨r, hr, rfl⟩ := mem_operations.mp hx
      exact ⟨r, (hmem.mp hr).1, (hmem.mp hr).2, r.key_eq⟩
    · rintro ⟨r, hr, hinfra, rfl⟩
      exact ⟨(r.normalPath, r.method), mem_operations.mpr ⟨r, hmem.mpr ⟨hr, hinfra⟩, rfl⟩,
        r.key_eq.symm⟩
  · rw [Spec.schemaNames_eq hnames hfields, mem_schemasOf]
    simp only [hmem, and_assoc]
  · refine List.filter_eq_nil_iff.mpr fun o ho => ?_
    obtain ⟨x, -, h⟩ := exists_of_mem_forall₂ hops ho
    rw [h.requestBody]
    exact Bool.false_ne_true
  · refine List.filter_eq_nil_iff.mpr fun o ho => ?_
    obtain ⟨x, -, h⟩ := exists_of_mem_forall₂ hops ho
    rw [h.responses]
    exact Bool.false_ne_true

/-- A path with a quote and a backslash next to a route of the infrastructure. -/
theorem synthesizeSpec_readBack_quoted :
    ∃ out front literal,
      synthesizeSpec .default "app.post(\"/it's\\x/:id\", f);\napp.get('/health', g);".toList =
      some out ∧
      ObjectLiteral.readAt? out (Text.size (front ++ "const openApiSpec = ".toList)) =
      some literal ∧
      (⟨specName, Text.size front, literal⟩ : Spec).withoutRequestBody out .default = [] ∧
      ∀ key, key ∈ (⟨specName, Text.size front, literal⟩ : Spec).operationKeys out ↔
        key = "post:/it's\\x/\x7bid\x7d".toList := by
  obtain ⟨out, front, back, literal, hout, -, hliteral, hread⟩ := synthesizeSpec_readBack .default
    "app.post(\"/it's\\x/:id\", f);\napp.get('/health', g);".toList
    (by decide) (by decide) (by decide)
  obtain ⟨hkeys, -, hbodies, -⟩ := hread ⟨specName, Text.size front, literal⟩ rfl
  refine ⟨out, front, literal, hout, hliteral, hbodies, fun key => ?_⟩
  have hroutes :
      ((Route.all (.of "app.post(\"/it's\\x/:id\", f);\napp.get('/health', g);".toList)).filter
      fun r => Policy.default.isInfraPath r.normalPath == false).map (·.key) =
      ["post:/it's\\x/\x7bid\x7d".toList] := by decide
  rw [hkeys, ← List.mem_singleton, ← hroutes, List.mem_map]
  simp only [List.mem_filter, beq_iff_eq, and_assoc]

end Repair

end ServiceGate
