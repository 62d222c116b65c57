/-
# What completing a specification keeps

A specification is completed by writing to one of its literals at a time.  For each completion the
literal that it writes to next is named (`pathsTarget?`, `operationTarget?`, `bodyTarget?`,
`responsesTarget?`, `componentsTarget?`, `schemaTarget?`), and the completed text keeps every
character that is no white space if each such literal, in the text as it is then, is spared
(`kept_of_spares`). A literal that has a spread for its only piece is not, and neither is one of
responses that are spread (`not_always_spared`).

A literal is spared if putting an entry into it loses nothing, and which literals those are is known
exactly.  What is new here is that a completion writes more than once: each write is to a text that
the one before has changed, so the conditions (`OperationsSpare`, `BodiesSpare`, `ResponsesSpare`,
`DeclarationsSpare`) are asked along the recursion of the completion.
-/
import ServiceGate.Proofs.Balanced.Specification
import ServiceGate.Proofs.ObjectLiteral.Appended

namespace ServiceGate

open Scan
open Text (Keeps)

variable {t u : Text} {spec : Spec} {o : ObjectLiteral} {policy : Policy} {written : Bool}

/-- What a specification holds is read where it opens. -/
theorem Spec.Holds.exists_readAt? (h : spec.Holds t o) (hspec : Repair.specOf? t = some spec) :
    ∃ n, ObjectLiteral.readAt? t n = some o := by
  cases h with
  | whole => exact Spec.exists_readAt?_of_find? hspec
  | value _ _ ho => exact ⟨_, ho⟩

theorem Spec.exists_braced (parts : List Text) : ∃ w, Spec.braced parts = '\x7b' ::
    (w ++ ['\x7d']) :=
  ⟨' ' :: (Text.join ", ".toList parts ++ [' ']), by simp [Spec.braced]⟩

/-- A literal of the specification that is spared, if there is one to write to. -/
def Repair.SparesTarget (t : Text) (target : Option ObjectLiteral) : Prop :=
  ∀ o ∈ target, o.Spares t

instance (t : Text) (target : Option ObjectLiteral) : Decidable (Repair.SparesTarget t target) :=
  inferInstanceAs (Decidable (∀ o ∈ target, o.Spares t))

namespace Repair

theorem SparesTarget.keeps (h : SparesTarget t (some o)) (hspec : specOf? t = some spec)
    (ho : spec.Holds t o) (entry : Text) : Keeps t (o.insertEntry t entry) := by
  obtain ⟨n, hn⟩ := ho.exists_readAt? hspec
  exact (h o rfl).keeps hn entry

/-! ## Routes -/

def pathsTarget? (t : Text) : Option ObjectLiteral :=
  (specOf? t).bind fun spec =>
  if spec.literal.hasKey "paths".toList then none else some spec.literal

theorem keeps_ensurePaths (ht : SparesTarget t (pathsTarget? t)) (h : ensurePaths t = some u) :
    Keeps t u := by
  obtain ⟨spec, hspec, rfl⟩ := Option.map_eq_some_iff.mp h
  split_ifs with hpaths
  · exact .refl t
  · rw [pathsTarget?, hspec, Option.bind_some, if_neg hpaths] at ht
    exact ht.keeps hspec .whole _

/-- The literal that an operation on a path is put in. -/
def operationTarget? (path t : Text) : Option ObjectLiteral := do
  let spec ← specOf? t
  let paths ← spec.paths? t
  match paths.entries.find? fun e => RoutePath.normalize e.key == path with
  | none => some paths
  | some entry => entry.object? t

theorem keeps_declareOperation {method path : Text} (ht : SparesTarget t (operationTarget? path t))
    (h : declareOperation policy method path t = some (u, written)) : Keeps t u := by
  obtain ⟨spec, hspec, h⟩ := Option.bind_eq_some_iff.mp h
  obtain ⟨paths, hpaths, h⟩ := Option.bind_eq_some_iff.mp h
  have hholds := Spec.holds_of_paths? hpaths
  simp only [operationTarget?, hspec, hpaths, Option.bind_eq_bind, Option.bind_some] at ht
  split at h
  · next hnone =>
      rw [hnone] at ht
      rw [← (Prod.mk.inj (Option.some.inj h)).1]
      exact ht.keeps hspec hholds _
  · next e he =>
      simp only [he] at ht
      split at h
      · rw [← (Prod.mk.inj (Option.some.inj h)).1]
        exact .refl t
      · next item hitem =>
          rw [hitem] at ht
          rw [← (Prod.mk.inj (Option.some.inj h)).1]
          exact ht.keeps hspec (.value hholds (List.mem_of_find?_eq_some he) hitem) _

/-- The literals that operations are put in are spared, each in the text with the operations in
front of it declared. -/
def OperationsSpare (policy : Policy) (keys : List Text) (t : Text) : Prop :=
  ∀ k < keys.length, ∀ x ∈ declareOperations policy (keys.take k) t, ∀ key ∈ keys[k]?,
    ∀ operation ∈ Text.splitOnce? key ':', SparesTarget x.1 (operationTarget? operation.2 x.1)

instance (policy : Policy) (keys : List Text) (t : Text) :
    Decidable (OperationsSpare policy keys t) :=
  inferInstanceAs (Decidable (∀ k < keys.length, ∀ x ∈ declareOperations policy (keys.take k) t, _))

theorem keeps_declareOperations : ∀ {keys : List Text} {t u : Text} {written : Bool},
    OperationsSpare policy keys t → declareOperations policy keys t = some (u, written) → Keeps t u
  | [], t, _, _, _, h => by
      rw [← (Prod.mk.inj (Option.some.inj h)).1]
      exact .refl t
  | key :: keys, t, u, written, hspare, h => by
      have hfirst := hspare 0 (Nat.succ_pos _) (t, false) rfl key rfl
      rw [declareOperations] at h
      cases hsplit : Text.splitOnce? key ':' with
      | none =>
          rw [hsplit] at h
          refine keeps_declareOperations (fun k hk x hx =>
            hspare (k + 1) (Nat.succ_lt_succ hk) x ?_) h
          rw [List.take_succ_cons, declareOperations, hsplit]
          exact hx
      | some operation =>
          obtain ⟨method, path⟩ := operation
          rw [hsplit] at h
          obtain ⟨⟨out, first⟩, hout, h⟩ := Option.bind_eq_some_iff.mp h
          obtain ⟨⟨last, more⟩, hlast, h⟩ := Option.bind_eq_some_iff.mp h
          rw [← (Prod.mk.inj (Option.some.inj h)).1]
          refine (keeps_declareOperation (hfirst _ hsplit) hout).trans
            (keeps_declareOperations (fun k hk x hx => ?_) hlast)
          refine hspare (k + 1) (Nat.succ_lt_succ hk) (x.1, first || x.2) ?_
          simp only [List.take_succ_cons, declareOperations, hsplit, hout, Option.mem_def.mp hx,
            Option.bind_eq_bind, Option.bind_some]
          rfl

/-- The literals that missing routes are declared in are spared. -/
def DriftSpares (policy : Policy) (t : Text) : Prop :=
  SparesTarget t (pathsTarget? t) ∧ ∀ start ∈ ensurePaths t, ∀ spec ∈ specOf? start,
    OperationsSpare policy (spec.driftKeys (.of start) policy) start

instance (policy : Policy) (t : Text) : Decidable (DriftSpares policy t) :=
  inferInstanceAs (Decidable (_ ∧ ∀ start ∈ ensurePaths t, ∀ spec ∈ specOf? start, _))

theorem keeps_injectDrift (ht : DriftSpares policy t) (h : injectDrift policy t = some u) :
    Keeps t u := by
  obtain ⟨start, spec, hstart, hspec, hout⟩ := exists_of_injectDrift h
  exact (keeps_ensurePaths ht.1 hstart).trans
    (keeps_declareOperations (ht.2 start hstart spec hspec) hout)

/-! ## Request bodies and responses -/

/-- The literal that the next request body is put in. -/
def bodyTarget? (policy : Policy) (t : Text) : Option ObjectLiteral := do
  let spec ← specOf? t
  let operation ← (spec.withoutRequestBody t policy).head?
  operation.object

/-- The literals that request bodies are put in are spared. -/
def BodiesSpare (policy : Policy) (rounds : Nat) (t : Text) : Prop :=
  ∀ k < rounds, ∀ out ∈ completeRequestBodies policy k t, SparesTarget out (bodyTarget? policy out)

instance (policy : Policy) (rounds : Nat) (t : Text) : Decidable (BodiesSpare policy rounds t) :=
  inferInstanceAs (Decidable (∀ k < rounds, ∀ out ∈ completeRequestBodies policy k t, _))

theorem keeps_completeRequestBodies : ∀ (rounds : Nat) {t u : Text}, BodiesSpare policy rounds t →
    completeRequestBodies policy rounds t = some u → Keeps t u
  | 0, _, _, _, h => Option.some.inj h ▸ .refl _
  | rounds + 1, t, u, ht, h => by
      have hfirst := ht 0 (Nat.succ_pos _) t rfl
      rcases completeRequestBodies_round h with
        rfl | ⟨spec, operation, schema, o, hspec, hhead, ho, hschema, hround⟩
      · exact .refl _
      · simp only [bodyTarget?, hspec, hhead, ho, Option.bind_eq_bind, Option.bind_some] at hfirst
        have hmem := (List.mem_filter.mp (List.mem_of_head? hhead)).1
        exact (hfirst.keeps hspec (Spec.holds_of_mem_operations hmem ho) _).trans
          (keeps_completeRequestBodies rounds (fun k hk out hout =>
            ht (k + 1) (Nat.succ_lt_succ hk) out ((hround k).trans hout)) (hround rounds ▸ h))

theorem keeps_injectRequestBodies (ht : ∀ spec ∈ specOf? t,
    BodiesSpare policy (spec.withoutRequestBody t policy).length t)
    (h : injectRequestBodies policy t = some u) : Keeps t u := by
  obtain ⟨spec, hspec, h⟩ := Option.bind_eq_some_iff.mp h
  have hspare := ht spec hspec
  split at h
  · cases h
  · exact keeps_completeRequestBodies _ hspare h

/-- The literal that the next responses are put in, or in whose place they are. -/
def responsesTarget? (t : Text) : Option ObjectLiteral := do
  let spec ← specOf? t
  let operation ← (spec.withoutResponses t).head?
  let object ← operation.object
  ((object.get? "responses".toList).bind (·.object? t)).or (some object)

/-- The literals that responses are put in are spared. -/
def ResponsesSpare (policy : Policy) (rounds : Nat) (t : Text) : Prop :=
  ∀ k < rounds, ∀ out ∈ completeResponses policy k t, SparesTarget out (responsesTarget? out)

instance (policy : Policy) (rounds : Nat) (t : Text) : Decidable (ResponsesSpare policy rounds t) :=
  inferInstanceAs (Decidable (∀ k < rounds, ∀ out ∈ completeResponses policy k t, _))

theorem keeps_writeResponses {op : SpecOperation} {method path : Text}
    (hspec : specOf? t = some spec) (hop : op ∈ spec.withoutResponses t) (ho : op.object = some o)
    (ht : SparesTarget t (((o.get? "responses".toList).bind (·.object? t)).or (some o))) :
    Keeps t (writeResponses t o (Spec.renderResponses policy method path)) := by
  obtain ⟨hmem, hlacks⟩ := List.mem_filter.mp hop
  have hholds := Spec.holds_of_mem_operations hmem ho
  rw [writeResponses]
  cases hold : (o.get? "responses".toList).bind (·.object? t) with
  | none =>
      rw [hold, Option.none_or] at ht
      exact ht.keeps hspec hholds _
  | some old =>
      rw [hold, Option.some_or] at ht
      obtain ⟨e, he, hobject⟩ := Option.bind_eq_some_iff.mp hold
      have hnil : old.entries = [] := by
        rw [Spec.lacksResponses, ho] at hlacks
        simp only [he, hobject, Option.any_some, List.isEmpty_iff] at hlacks
        exact hlacks
      have hblank := (ht old rfl).resolve_left (by
        rintro ⟨last, hl, -⟩
        rw [hnil] at hl
        cases hl)
      obtain ⟨new, hnew⟩ : ∃ new, Spec.renderResponses policy method path = '\x7b' ::
          (new ++ ['\x7d']) :=
        Spec.exists_braced _
      show Keeps t (t.splice old.openAt (old.closeAt + 1) (Spec.renderResponses policy method path))
      rw [hnew, ObjectLiteral.keeps_anew_iff hobject, Text.dense_eq_nil_iff.mpr hblank]
      exact List.nil_sublist _

theorem keeps_completeResponses : ∀ (rounds : Nat) {t u : Text}, ResponsesSpare policy rounds t →
    completeResponses policy rounds t = some u → Keeps t u
  | 0, _, _, _, h => Option.some.inj h ▸ .refl _
  | rounds + 1, t, u, ht, h => by
      have hfirst := ht 0 (Nat.succ_pos _) t rfl
      rcases completeResponses_round h with
        rfl | ⟨spec, operation, o, hspec, hhead, ho, hround⟩
      · exact .refl _
      · simp only [responsesTarget?, hspec, hhead, ho, Option.bind_eq_bind, Option.bind_some]
          at hfirst
        exact (keeps_writeResponses hspec (List.mem_of_head? hhead) ho hfirst).trans
          (keeps_completeResponses rounds (fun k hk out hout =>
            ht (k + 1) (Nat.succ_lt_succ hk) out ((hround k).trans hout)) (hround rounds ▸ h))

theorem keeps_injectResponses
    (ht : ∀ spec ∈ specOf? t, ResponsesSpare policy (spec.withoutResponses t).length t)
    (h : injectResponses policy t = some u) : Keeps t u := by
  obtain ⟨spec, hspec, h⟩ := Option.bind_eq_some_iff.mp h
  have hspare := ht spec hspec
  split at h
  · cases h
  · exact keeps_completeResponses _ hspare h

/-! ## Schemas -/

/-- The literal that `schemas`, and `components` around them, are put in. -/
def componentsTarget? (t : Text) : Option ObjectLiteral := do
  let spec ← specOf? t
  match spec.literal.get? "components".toList with
  | none => some spec.literal
  | some entry =>
    let components ← entry.object? t
    if components.hasKey "schemas".toList then none else some components

theorem keeps_ensureSchemas (ht : SparesTarget t (componentsTarget? t))
    (h : ensureSchemas t = some u) :
    Keeps t u := by
  obtain ⟨spec, hspec, h⟩ := Option.bind_eq_some_iff.mp h
  simp only [componentsTarget?, hspec, Option.bind_eq_bind, Option.bind_some] at ht
  split at h
  · next hnone =>
      rw [hnone] at ht
      rw [← Option.some.inj h]
      exact ht.keeps hspec .whole _
  · next e he =>
      obtain ⟨components, hcomponents, h⟩ := Option.bind_eq_some_iff.mp h
      simp only [he, hcomponents, Option.bind_some] at ht
      split_ifs at h with hschemas
      · exact Option.some.inj h ▸ .refl _
      · rw [if_neg hschemas] at ht
        rw [← Option.some.inj h]
        exact ht.keeps hspec (Spec.Holds.whole.get? he hcomponents) _

def schemaTarget? (t : Text) : Option ObjectLiteral := (specOf? t).bind (·.schemas? t)

/-- The literals that schemas are put in are spared. -/
def DeclarationsSpare (names : List Text) (t : Text) : Prop :=
  ∀ k < names.length, ∀ out ∈ (names.take k).foldlM declareSchema t,
  SparesTarget out (schemaTarget? out)

instance (names : List Text) (t : Text) : Decidable (DeclarationsSpare names t) :=
  inferInstanceAs (Decidable (∀ k < names.length, ∀ out ∈ (names.take k).foldlM declareSchema t, _))

theorem keeps_declareSchemas : ∀ {names : List Text} {t u : Text}, DeclarationsSpare names t →
    names.foldlM declareSchema t = some u → Keeps t u
  | [], _, _, _, h => Option.some.inj h ▸ .refl _
  | name :: names, t, u, ht, h => by
      have hfirst := ht 0 (Nat.succ_pos _) t rfl
      rw [List.foldlM_cons] at h
      obtain ⟨out, hout, h⟩ := Option.bind_eq_some_iff.mp h
      have hone := hout
      obtain ⟨spec, hspec, hout⟩ := Option.bind_eq_some_iff.mp hout
      obtain ⟨schemas, hschemas, hout⟩ := Option.bind_eq_some_iff.mp hout
      rw [schemaTarget?, hspec, Option.bind_some, hschemas] at hfirst
      have hkept := hfirst.keeps hspec (Spec.holds_of_schemas? hschemas)
        (Spec.entry name "\x7b type: 'object' \x7d".toList)
      rw [Option.some.inj hout] at hkept
      refine hkept.trans (keeps_declareSchemas (fun k hk out' hout' => ?_) h)
      refine ht (k + 1) (Nat.succ_lt_succ hk) out' ?_
      rw [List.take_succ_cons, List.foldlM_cons, hone]
      exact hout'

/-- The literals that missing schemas are declared in are spared. -/
def SchemasSpare (policy : Policy) (t : Text) : Prop :=
  SparesTarget t (componentsTarget? t) ∧ ∀ start ∈ ensureSchemas t, ∀ spec ∈ specOf? start,
    DeclarationsSpare (spec.missingSchemas (.of start) policy) start

instance (policy : Policy) (t : Text) : Decidable (SchemasSpare policy t) :=
  inferInstanceAs (Decidable (_ ∧ ∀ start ∈ ensureSchemas t, ∀ spec ∈ specOf? start, _))

theorem keeps_injectSchemas (ht : SchemasSpare policy t) (h : injectSchemas policy t = some u) :
    Keeps t u := by
  obtain ⟨start, hstart, h⟩ := Option.bind_eq_some_iff.mp h
  obtain ⟨spec, hspec, h⟩ := Option.bind_eq_some_iff.mp h
  have hspare := ht.2 start hstart spec hspec
  refine (keeps_ensureSchemas ht.1 hstart).trans ?_
  split at h
  · cases h
  · exact keeps_declareSchemas hspare h

/-! ## Every completion -/

/-- Adding an entry keeps the text for whatever entry exactly if the literal is spared, and a
completion keeps it if each literal that it writes to is. -/
theorem kept_of_spares (policy : Policy) (t : Text) :
    (∀ n o, ObjectLiteral.readAt? t n = some o →
      ((∀ entry, Keeps t (o.insertEntry t entry)) ↔ o.Spares t)) ∧
    (DriftSpares policy t → ∀ u, injectDrift policy t = some u → Keeps t u) ∧
    ((∀ spec ∈ specOf? t, BodiesSpare policy (spec.withoutRequestBody t policy).length t) →
      ∀ u, injectRequestBodies policy t = some u → Keeps t u) ∧
    ((∀ spec ∈ specOf? t, ResponsesSpare policy (spec.withoutResponses t).length t) →
      ∀ u, injectResponses policy t = some u → Keeps t u) ∧
    (SchemasSpare policy t → ∀ u, injectSchemas policy t = some u → Keeps t u) :=
  ⟨fun _ _ ho => ObjectLiteral.keeps_iff ho, fun ht _ hu => keeps_injectDrift ht hu,
    fun ht _ hu => keeps_injectRequestBodies ht hu, fun ht _ hu => keeps_injectResponses ht hu,
    fun ht _ hu => keeps_injectSchemas ht hu⟩

/-- A specification with spreads and comments, in which something is missing for each completion. -/
def sparing : Text :=
  "const s=\x7bopenapi:3,paths:\x7b...m,'/a':\x7bpost:\x7ba:1/*c*/\x7d\x7d\x7d\x7d;app.put('/b',h)".toList

set_option maxRecDepth 2000 in
theorem kept_of_spares_sparing :
    (∃ u, injectDrift .default sparing = some u ∧ Keeps sparing u) ∧
    (∃ u, injectRequestBodies .default sparing = some u ∧ Keeps sparing u) ∧
    (∃ u, injectResponses .default sparing = some u ∧ Keeps sparing u) ∧
      ∃ u, injectSchemas .default sparing = some u ∧ Keeps sparing u := by
  have hchars : sparing = _ := String.toList_ofList
  obtain ⟨-, hdrift, hbodies, hresponses, hschemas⟩ := kept_of_spares .default sparing
  have hwrites : (injectDrift .default sparing).isSome = true ∧
      (injectRequestBodies .default sparing).isSome = true ∧
      (injectResponses .default sparing).isSome = true ∧
      (injectSchemas .default sparing).isSome = true := by
    rw [hchars]
    decide
  have hspares : DriftSpares .default sparing ∧
      (∀ spec ∈ specOf? sparing,
        BodiesSpare .default (spec.withoutRequestBody sparing .default).length sparing) ∧
      (∀ spec ∈ specOf? sparing,
        ResponsesSpare .default (spec.withoutResponses sparing).length sparing) ∧
      SchemasSpare .default sparing := by
    rw [hchars]
    decide
  obtain ⟨⟨u₁, hu₁⟩, ⟨u₂, hu₂⟩, ⟨u₃, hu₃⟩, u₄, hu₄⟩ := by
    simpa only [Option.isSome_iff_exists] using hwrites
  exact ⟨⟨u₁, hu₁, hdrift hspares.1 u₁ hu₁⟩, ⟨u₂, hu₂, hbodies hspares.2.1 u₂ hu₂⟩,
    ⟨u₃, hu₃, hresponses hspares.2.2.1 u₃ hu₃⟩, ⟨u₄, hu₄, hschemas hspares.2.2.2 u₄ hu₄⟩⟩

def gathered : Text :=
  "const s = \x7b openapi: '3', paths: \x7b '/a': \x7b get: \x7b responses: \x7b ...all \x7d \x7d \x7d \x7d \x7d;".toList

/-- A spread that is the only piece of a literal, and one that is the only piece of responses. -/
theorem not_always_spared :
    (¬ ∀ t n o entry, ObjectLiteral.readAt? t n = some o → Keeps t (o.insertEntry t entry)) ∧
      ¬ ∀ t u, injectResponses .default t = some u → Keeps t u := by
  constructor
  · intro h
    have hlost : ∃ o ∈ ObjectLiteral.readAt? "const o = \x7b ...rest \x7d;".toList 10,
        ¬ Keeps "const o = \x7b ...rest \x7d;".toList
          (o.insertEntry "const o = \x7b ...rest \x7d;".toList "a: 1".toList) := by
      decide
    obtain ⟨o, ho, hlost⟩ := hlost
    exact hlost (h _ 10 o _ ho)
  · intro h
    have hchars : gathered = _ := String.toList_ofList
    have hlost : ∃ u ∈ injectResponses .default gathered, ¬ Keeps gathered u := by
      rw [hchars]
      decide
    obtain ⟨u, hu, hlost⟩ := hlost
    exact hlost (h _ u hu)

end Repair

end ServiceGate
