/-
# Schemas that stand in for others

A schema is expected for each change of a resource, under the word for the change and the name of
the resource (`mem_expectedSchemas_iff`).  An expected schema counts as declared if the name of a
declared one starts with its name, so that a suffix may follow.

So where only expected schemas are declared, what is missing is what is not declared, less the
schemas of the resources with whose name that of another resource starts for which the same change
is declared (`mem_missingSchemas_iff`).  There are such resources (`not_only_declared`).
-/
import Mathlib.Tactic.ByContra
import Mathlib.Tactic.SplitIfs
import ServiceGate.Spec.Coverage

namespace ServiceGate.Spec

variable {spec : Spec} {s : Scan.Source} {policy : Policy} {method path name r x : Text}

/-! ## Changes of resources -/

/-- A change of a resource that has a schema. -/
inductive Change where
  | create
  | update
deriving DecidableEq

namespace Change

def word : Change → Text
  | create => "Create".toList
  | update => "Update".toList

/-- The change that an operation makes by its method. -/
def ofMethod? (method : Text) : Option Change :=
  if method == "post".toList then some create
  else if method == "put".toList || method == "patch".toList then some update
  else none

theorem word_append_inj {c c' : Change} {r r' : Text} (h : c.word ++ r = c'.word ++ r') : c = c' ∧
    r = r' := by
  have hlength : c.word.length = c'.word.length := by cases c <;> cases c' <;> rfl
  obtain ⟨hword, hrest⟩ := List.append_inj h hlength
  have hwords : ∀ c c' : Change, c.word = c'.word → c = c'
    | create, create, _ => rfl
    | update, update, _ => rfl
    | create, update, h => absurd h (by decide)
    | update, create, h => absurd h (by decide)
  exact ⟨hwords c c' hword, hrest⟩

end Change

/-- A route in code or an operation of the specification has this method and path. -/
def Mentions (spec : Spec) (s : Scan.Source) (method path : Text) : Prop :=
  (∃ r ∈ Route.all s, r.method = method ∧ r.normalPath = path) ∨
    ∃ o ∈ spec.operations s.text, o.method = method ∧ o.path = path

/-- A resource is changed by a route in code or an operation of the specification that a schema is
expected for. -/
def Changes (spec : Spec) (s : Scan.Source) (policy : Policy) (c : Change) (r : Text) : Prop :=
  ∃ method path, spec.Mentions s method path ∧ policy.isInfraPath path = false ∧
  policy.isActionPath path = false ∧
    Change.ofMethod? method = some c ∧ Resource.ofPath? path = some r

theorem expectedSchema?_eq : expectedSchema? policy method path =
    if policy.isInfraPath path || policy.isActionPath path then none
    else (Resource.ofPath? path).bind fun r => (Change.ofMethod? method).map (·.word ++ r) := by
  rw [expectedSchema?]
  cases policy.isInfraPath path || policy.isActionPath path with
  | true => rfl
  | false =>
      cases Resource.ofPath? path with
      | none => rfl
      | some r =>
          rw [if_neg Bool.false_ne_true, if_neg Bool.false_ne_true, Option.bind_some,
            Change.ofMethod?]
          show (if method == "post".toList then some ("Create".toList ++ r)
            else if method == "put".toList || method ==
              "patch".toList then some ("Update".toList ++ r) else none) = _
          split_ifs <;> rfl

theorem expectedSchema?_eq_some_iff : expectedSchema? policy method path = some name ↔
    policy.isInfraPath path = false ∧ policy.isActionPath path = false ∧
      ∃ c r, Change.ofMethod? method = some c ∧ Resource.ofPath? path = some r ∧
      name = c.word ++ r := by
  rw [expectedSchema?_eq]
  by_cases hpath : (policy.isInfraPath path || policy.isActionPath path) = true
  · rw [if_pos hpath]
    rw [Bool.or_eq_true] at hpath
    refine iff_of_false (fun h => nomatch h) fun ⟨hinfra, haction, _⟩ => ?_
    rw [hinfra, haction] at hpath
    exact hpath.elim (fun h => nomatch h) fun h => nomatch h
  · rw [if_neg hpath]
    rw [Bool.not_eq_true, Bool.or_eq_false_iff] at hpath
    rw [and_iff_right hpath.1, and_iff_right hpath.2]
    simp only [Option.bind_eq_some_iff, Option.map_eq_some_iff]
    constructor
    · rintro ⟨r, hr, c, hc, rfl⟩
      exact ⟨c, r, hc, hr, rfl⟩
    · rintro ⟨c, r, hc, hr, rfl⟩
      exact ⟨r, hr, c, hc, rfl⟩

/-- The schemas that are expected are those of the changes. -/
theorem mem_expectedSchemas_iff : name ∈ spec.expectedSchemas s policy ↔
    ∃ c r, spec.Changes s policy c r ∧ name = c.word ++ r := by
  simp only [expectedSchemas, mem_sortedSet, List.mem_append, List.mem_filterMap,
    expectedSchema?_eq_some_iff]
  constructor
  · rintro (⟨route, hroute, hinfra, haction, c, r, hc, hr, rfl⟩ | ⟨o, ho, hinfra, haction, c, r, hc,
        hr, rfl⟩)
    · exact ⟨c, r, ⟨_, _, .inl ⟨route, hroute, rfl, rfl⟩, hinfra, haction, hc, hr⟩, rfl⟩
    · exact ⟨c, r, ⟨_, _, .inr ⟨o, ho, rfl, rfl⟩, hinfra, haction, hc, hr⟩, rfl⟩
  · rintro ⟨c, r, ⟨_, _, ⟨route, hroute, rfl, rfl⟩ | ⟨o, ho, rfl, rfl⟩, hinfra, haction, hc, hr⟩,
        rfl⟩
    · exact .inl ⟨route, hroute, hinfra, haction, c, r, hc, hr, rfl⟩
    · exact .inr ⟨o, ho, hinfra, haction, c, r, hc, hr, rfl⟩

/-! ## What is missing -/

/-- The same change is declared for another resource with a longer name that starts with that of
this one. -/
def StandsIn (spec : Spec) (s : Scan.Source) (policy : Policy) (c : Change) (r : Text) : Prop :=
  ∃ x, x ≠ [] ∧ spec.Changes s policy c (r ++ x) ∧ c.word ++ (r ++ x) ∈ spec.schemaNames s.text

theorem mem_missingSchemas : name ∈ spec.missingSchemas s policy ↔
    name ∈ spec.expectedSchemas s policy ∧ ∀ d ∈ spec.schemaNames s.text, ¬ name <+: d := by
  rw [missingSchemas, List.mem_filter, Bool.not_eq_true', List.any_eq_false]
  simp only [Text.startsWith, List.isPrefixOf_iff_prefix]

/-- If only expected schemas are declared, the missing ones are those that are not declared
themselves and that no other one stands in for; and they are all that are not declared exactly if
none stands in for another. -/
theorem mem_missingSchemas_iff
    (hdeclared : ∀ d ∈ spec.schemaNames s.text, d ∈ spec.expectedSchemas s policy) :
    (∀ name, name ∈ spec.missingSchemas s policy ↔ ∃ c r, spec.Changes s policy c r ∧
      name = c.word ++ r ∧ name ∉ spec.schemaNames s.text ∧ ¬ spec.StandsIn s policy c r) ∧
    ((∀ name, name ∈ spec.missingSchemas s policy ↔
        name ∈ spec.expectedSchemas s policy ∧ name ∉ spec.schemaNames s.text) ↔
      ∀ c r, spec.Changes s policy c r → spec.StandsIn s policy c r →
        c.word ++ r ∈ spec.schemaNames s.text) := by
  have hmissing : ∀ name, name ∈ spec.missingSchemas s policy ↔ ∃ c r, spec.Changes s policy c r ∧
      name = c.word ++ r ∧ name ∉ spec.schemaNames s.text ∧ ¬ spec.StandsIn s policy c r := by
    intro name
    rw [mem_missingSchemas, mem_expectedSchemas_iff]
    constructor
    · rintro ⟨⟨c, r, hchange, rfl⟩, hnone⟩
      refine ⟨c, r, hchange, rfl, fun hmem => hnone _ hmem (List.prefix_refl _),
        fun ⟨x, _, _, hmem⟩ => ?_⟩
      exact hnone _ hmem ⟨x, List.append_assoc _ _ _⟩
    · rintro ⟨c, r, hchange, rfl, hnotMem, hnone⟩
      refine ⟨⟨c, r, hchange, rfl⟩, ?_⟩
      rintro _ hd ⟨x, rfl⟩
      -- what is declared is expected for a change of a resource, which is this change and goes on
      -- with `x`
      obtain ⟨c', r', hchange', hname⟩ := mem_expectedSchemas_iff.mp (hdeclared _ hd)
      rw [List.append_assoc] at hname hd
      obtain ⟨rfl, rfl⟩ := Change.word_append_inj hname
      cases x with
      | nil => exact hnotMem (List.append_nil r ▸ hd)
      | cons a x => exact hnone ⟨a :: x, List.cons_ne_nil a x, hchange', hd⟩
  refine ⟨hmissing, fun h c r hchange hstands => ?_, fun h name => ?_⟩
  · by_contra hnotMem
    have hmem := (h _).mpr ⟨mem_expectedSchemas_iff.mpr ⟨c, r, hchange, rfl⟩, hnotMem⟩
    obtain ⟨c', r', -, hname, -, hnone⟩ := (hmissing _).mp hmem
    obtain ⟨rfl, rfl⟩ := Change.word_append_inj hname
    exact hnone hstands
  · rw [hmissing, mem_expectedSchemas_iff]
    constructor
    · rintro ⟨c, r, hchange, rfl, hnotMem, -⟩
      exact ⟨⟨c, r, hchange, rfl⟩, hnotMem⟩
    · rintro ⟨⟨c, r, hchange, rfl⟩, hnotMem⟩
      exact ⟨c, r, hchange, rfl, hnotMem, fun hstands => hnotMem (h c r hchange hstands)⟩

/-- A specification with the schema of one resource and routes that change two. -/
@[irreducible] def oneOfTwo (declared : String) (first second : String) : Text :=
  ("const spec = \x7b openapi: '3.0.0', components: \x7b schemas: \x7b ".toList ++
    declared.toList) ++
    (": \x7b\x7d \x7d \x7d \x7d;\napp.post('".toList ++ first.toList) ++
      ("', h);\napp.post('".toList ++ second.toList) ++ "', h);\n".toList

theorem mem_missingSchemas_iff_apart :
    ∃ spec ∈ find? (.of (oneOfTwo "CreateItem" "/items" "/users")), ∃ c r,
    spec.Changes (.of (oneOfTwo "CreateItem" "/items" "/users")) .default c r ∧
    "CreateUser".toList = c.word ++ r ∧
      "CreateUser".toList ∉ spec.schemaNames (oneOfTwo "CreateItem" "/items" "/users") ∧
        ¬ spec.StandsIn (.of (oneOfTwo "CreateItem" "/items" "/users")) .default c r := by
  have hspec : ∃ spec ∈ find? (.of (oneOfTwo "CreateItem" "/items" "/users")),
      (∀ d ∈ spec.schemaNames (oneOfTwo "CreateItem" "/items" "/users"),
        d ∈ spec.expectedSchemas (.of (oneOfTwo "CreateItem" "/items" "/users")) .default) ∧
      "CreateUser".toList ∈ spec.missingSchemas (.of (oneOfTwo "CreateItem" "/items" "/users"))
        .default := by
    decide +kernel
  obtain ⟨spec, hspec, hdeclared, hmissing⟩ := hspec
  generalize oneOfTwo "CreateItem" "/items" "/users" = t at *
  exact ⟨spec, hspec, ((mem_missingSchemas_iff (s := .of t) hdeclared).1 _).mp hmissing⟩

/-- A declared schema may stand in for the one of another resource, with a shorter name. -/
theorem not_only_declared : ¬ ∀ (t : Text) (policy : Policy), ∀ spec ∈ find? (.of t),
    (∀ d ∈ spec.schemaNames t, d ∈ spec.expectedSchemas (.of t) policy) →
      ∀ name, name ∈ spec.missingSchemas (.of t) policy ↔
        name ∈ spec.expectedSchemas (.of t) policy ∧ name ∉ spec.schemaNames t := by
  intro h
  have hlost : ∃ spec ∈ find? (.of (oneOfTwo "CreateItemGroup" "/items" "/item-groups")),
      (∀ d ∈ spec.schemaNames (oneOfTwo "CreateItemGroup" "/items" "/item-groups"),
        d ∈ spec.expectedSchemas (.of (oneOfTwo "CreateItemGroup" "/items" "/item-groups"))
        .default) ∧
      "CreateItem".toList ∈ spec.expectedSchemas
        (.of (oneOfTwo "CreateItemGroup" "/items" "/item-groups")) .default ∧
      "CreateItem".toList ∉ spec.schemaNames (oneOfTwo "CreateItemGroup" "/items" "/item-groups") ∧
      "CreateItem".toList ∉ spec.missingSchemas
      (.of (oneOfTwo "CreateItemGroup" "/items" "/item-groups")) .default := by
    decide +kernel
  obtain ⟨spec, hspec, hdeclared, hexpected, hnotMem, hnotMissing⟩ := hlost
  generalize oneOfTwo "CreateItemGroup" "/items" "/item-groups" = t at *
  exact hnotMissing ((h _ .default spec hspec hdeclared _).mpr ⟨hexpected, hnotMem⟩)

end ServiceGate.Spec
