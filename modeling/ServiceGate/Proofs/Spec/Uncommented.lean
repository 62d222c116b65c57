/-
# Reading imports and the specification without the comments

What is read of a text should not depend on its comments.  It does where a comment stands in the
middle of what a pattern describes, or right behind a key (`not_always_uncommented`).  Elsewhere it
does not:

* where no import statement is comment in part, the same statements are read
  (`imports_uncommented`);
* a place from which a literal is read (`Reached`) and which is `Readable` has the same literal,
  entry by entry and down to the operations and schemas (`Seen`);
* `read_uncommented` puts both together.
-/
import ServiceGate.Import.Read
import ServiceGate.Proofs.Checked.Rules
import ServiceGate.Proofs.ObjectLiteral.Uncommented
import ServiceGate.Proofs.Pattern.Uncommented
import ServiceGate.Proofs.Spec.Declared
import ServiceGate.Spec.Coverage

namespace ServiceGate

open Scan

variable {t : Text} {m : Match} {n : Nat}

/-! ## Import statements -/

theorem start_ofMatch_lt (hm : m ∈ ImportStatement.pattern.all t) :
    (ImportStatement.ofMatch m).start < m.stop := by
  have hin := Pattern.in_of_mem_all hm
  obtain ⟨u, v, htext, -, hv⟩ := Pattern.spells_seq hin.spells
  obtain ⟨indent, w, rfl, -, hw⟩ := Pattern.spells_seq hv
  obtain ⟨keyword, x, rfl, hkeyword, -⟩ := Pattern.spells_seq hw
  obtain rfl := Pattern.spells_literal hkeyword
  have hletter : 'i' ∈ m.text := by
    rw [htext]
    exact List.mem_append_right _ (List.mem_append_right _ (List.mem_append_left _ (by decide)))
  have hcut :=
    congrArg Text.size (List.takeWhile_append_dropWhile (p := Text.isIndent) (l := m.text))
  rw [Text.size_append] at hcut
  have hrest : Text.size (m.text.dropWhile Text.isIndent) ≠ 0 := fun hzero => by
    have hall := List.dropWhile_eq_nil_iff.mp (Text.eq_nil_of_size hzero)
    exact absurd (hall 'i' hletter) (by decide)
  show m.start + Text.size (m.text.takeWhile Text.isIndent) < m.stop
  rw [hin.stop]
  omega

/-- Without the comments the same statements are read. -/
theorem imports_uncommented (h : ImportStatement.pattern.Spared t) :
    ImportStatement.all (.of (uncomment t)) = ImportStatement.all (.of t) := by
  have hcode : ∀ m ∈ ImportStatement.pattern.all t, ¬ m.Clear t →
      (Source.of t).isCodeAt (ImportStatement.ofMatch m).start = false := fun m hm hclear =>
    ((h.text m hm).resolve_left hclear).isCodeAt (bounds_ofMatch hm).1.stop (bounds_ofMatch hm).1.le
      (start_ofMatch_lt hm)
  rw [ImportStatement.all, ImportStatement.all, show (Source.of (uncomment t)).text =
    uncomment t from rfl,
    Pattern.all_uncomment rfl rfl h, List.filter_map, List.filter_map, List.filter_filter]
  refine congrArg _ (List.filter_congr fun m hm => ?_)
  rw [Function.comp_apply, Function.comp_apply, isCodeAt_uncomment]
  by_cases hclear : m.Clear t
  · simp [hclear]
  · rw [hcode m hm hclear, Bool.false_and]

/-! ## Literals -/

/-- The places from which the reading of a specification goes on: the braces of declarations, and
the values of the entries of what is read there. -/
inductive Spec.Reached (t : Text) : Nat → Prop
  | declared {m : Match} : m ∈ Spec.declaration.all t → (Source.of t).isCodeAt m.start = true →
      Reached t (m.stop - 1)
  | value {n : Nat} {o : ObjectLiteral} {e : ObjectEntry} : Reached t n →
      ObjectLiteral.readAt? t n = some o → e ∈ o.entries → Reached t e.valueStart

/-- If a brace stands at an offset, it stands in code outside of templates, and no comment stands
right behind a key of its literal or right behind the colon of one. -/
def ObjectLiteral.Readable (t : Text) (n : Nat) : Prop :=
  (t.after n).head? = some '\x7b' → OpensAt t .brace n ∧ ObjectLiteral.Plain t n

/-- Every place that is reached can be read. -/
def Spec.Legible (t : Text) : Prop := ∀ n, Reached t n → ObjectLiteral.Readable t n

/-- Two literals at one place, read with the comments and without them, with the same entries but
for the ends of the values. -/
structure ObjectLiteral.Seen (t : Text) (o o' : ObjectLiteral) : Prop where
  openAt : o'.openAt = o.openAt
  closeAt : o'.closeAt = o.closeAt
  entries : List.Forall₂ (fun e e' => e.Like e' ∧ Spec.Reached t e.valueStart) o.entries o'.entries

/-- The same operation, read with the comments and without them. -/
structure SpecOperation.Seen (t : Text) (o o' : SpecOperation) : Prop where
  path : o'.path = o.path
  method : o'.method = o.method
  keyAt : o'.keyAt = o.keyAt
  object : Option.Rel (ObjectLiteral.Seen t) o.object o'.object

section Reading

variable {o o' : ObjectLiteral} {e e' : ObjectEntry} {spec spec' : Spec}

theorem rel_bind {α α' β β' : Type} {r : α → α' → Prop} {r' : β → β' → Prop} {x : Option α}
    {x' : Option α'} {f : α → Option β} {f' : α' → Option β'} (h : Option.Rel r x x')
    (hf : ∀ {a a'}, r a a' → Option.Rel r' (f a) (f' a')) :
    Option.Rel r' (x.bind f) (x'.bind f') := by
  cases h with
  | none => exact .none
  | some h => exact hf h

theorem isSome_of_rel {α β : Type} {r : α → β → Prop} {x : Option α} {y : Option β}
    (h : Option.Rel r x y) : y.isSome = x.isSome := by
  cases h <;> rfl

theorem ObjectLiteral.seen_readAt? (ht : Spec.Legible t) (hn : Spec.Reached t n) :
    Option.Rel (Seen t) (readAt? t n) (readAt? (uncomment t) n) := by
  by_cases hhead : (t.after n).head? = some '\x7b'
  · obtain ⟨hopen, hplain⟩ := ht n hn hhead
    have hlike := readAt?_uncomment hopen hplain
    cases hread : readAt? t n with
    | none =>
        rw [hread] at hlike
        generalize readAt? (uncomment t) n = x at hlike ⊢
        cases hlike
        exact .none
    | some o =>
        rw [hread] at hlike
        generalize readAt? (uncomment t) n = x at hlike ⊢
        cases hlike with
        | some h =>
            refine .some ⟨h.openAt, h.closeAt, ?_⟩
            have hreached : ∀ e ∈ o.entries, Spec.Reached t e.valueStart := fun e he =>
              .value hn hread he
            exact (List.forall₂_and_left (p := fun e => Spec.Reached t e.valueStart) _ _).mpr
              ⟨hreached, h.entries⟩ |>.imp fun _ _ h => ⟨h.2, h.1⟩
  · rw [readAt?_of_head hhead, readAt?_uncomment_of_head hhead]
    exact .none

theorem ObjectEntry.seen_object? (ht : Spec.Legible t)
    (h : e.Like e' ∧ Spec.Reached t e.valueStart) :
    Option.Rel (ObjectLiteral.Seen t) (e.object? t) (e'.object? (uncomment t)) := by
  rw [ObjectEntry.object?, ObjectEntry.object?, h.1.valueStart]
  exact ObjectLiteral.seen_readAt? ht h.2

theorem ObjectLiteral.Seen.get? (h : o.Seen t o') (key : Text) :
    Option.Rel (fun e e' => e.Like e' ∧ Spec.Reached t e.valueStart) (o.get? key)
    (o'.get? key) := by
  obtain ⟨-, -, hentries⟩ := h
  rw [ObjectLiteral.get?, ObjectLiteral.get?]
  generalize o.entries = l at hentries ⊢
  generalize o'.entries = l' at hentries ⊢
  induction hentries with
  | nil => exact .none
  | @cons e e' l l' he _ ih =>
      rw [List.find?_cons, List.find?_cons, he.1.key]
      cases e.key == key with
      | true => exact .some he
      | false => exact ih

theorem ObjectLiteral.Seen.hasKey (h : o.Seen t o') (key : Text) : o'.hasKey key = o.hasKey key :=
  isSome_of_rel (h.get? key)

/-! ## Operations and schemas -/

namespace Spec

theorem seen_operation? (ht : Legible t) (path : Text) (h : e.Like e' ∧ Reached t e.valueStart) :
    Option.Rel (SpecOperation.Seen t) (operation? t path e) (operation? (uncomment t) path e') := by
  rw [operation?, operation?, h.1.key]
  split_ifs
  · exact .some ⟨rfl, rfl, h.1.keyAt, ObjectEntry.seen_object? ht h⟩
  · exact .none

theorem seen_operationsOfPath (ht : Legible t) (h : e.Like e' ∧ Reached t e.valueStart) :
    List.Forall₂ (SpecOperation.Seen t) (operationsOfPath t e)
    (operationsOfPath (uncomment t) e') := by
  have hobject := ObjectEntry.seen_object? ht h
  rw [operationsOfPath, operationsOfPath]
  generalize e.object? t = x at hobject ⊢
  generalize e'.object? (uncomment t) = x' at hobject ⊢
  cases hobject with
  | none => exact .nil
  | some hitem =>
      rw [h.1.key]
      exact List.rel_filterMap (fun _ _ he => seen_operation? ht e.key he) hitem.entries

theorem seen_operations (ht : Legible t) (h : spec.literal.Seen t spec'.literal) :
    List.Forall₂ (SpecOperation.Seen t) (spec.operations t) (spec'.operations (uncomment t)) := by
  have hpaths : Option.Rel (ObjectLiteral.Seen t) (spec.paths? t) (spec'.paths? (uncomment t)) :=
    rel_bind (h.get? _) (ObjectEntry.seen_object? ht)
  rw [operations, operations]
  generalize spec.paths? t = x at hpaths ⊢
  generalize spec'.paths? (uncomment t) = x' at hpaths ⊢
  cases hpaths with
  | none => exact .nil
  | some hpaths => exact List.rel_flatMap hpaths.entries fun _ _ he => seen_operationsOfPath ht he

theorem schemaNames_uncommented (ht : Legible t) (h : spec.literal.Seen t spec'.literal) :
    spec'.schemaNames (uncomment t) = spec.schemaNames t := by
  have hschemas :
      Option.Rel (ObjectLiteral.Seen t) (spec.schemas? t) (spec'.schemas? (uncomment t)) :=
    rel_bind (rel_bind (rel_bind (h.get? _) (ObjectEntry.seen_object? ht)) fun hc => hc.get? _)
      (ObjectEntry.seen_object? ht)
  rw [schemaNames, schemaNames]
  generalize spec.schemas? t = x at hschemas ⊢
  generalize spec'.schemas? (uncomment t) = x' at hschemas ⊢
  cases hschemas with
  | none => rfl
  | some h => exact (map_eq_of_forall₂ h.entries fun _ _ he => he.1.key.symm).symm

theorem lacksRequestBody_seen {op op' : SpecOperation} (policy : Policy) (h : op.Seen t op') :
    lacksRequestBody policy op' = lacksRequestBody policy op := by
  obtain ⟨hpath, hmethod, -, hobject⟩ := h
  rw [lacksRequestBody, lacksRequestBody, hpath, hmethod]
  generalize op.object = x at hobject ⊢
  generalize op'.object = x' at hobject ⊢
  cases hobject with
  | none => rfl
  | some h => rw [Option.any_some, Option.any_some, h.hasKey]

theorem lacksResponses_seen {op op' : SpecOperation} (ht : Legible t) (h : op.Seen t op') :
    lacksResponses (uncomment t) op' = lacksResponses t op := by
  have hobject := h.object
  rw [lacksResponses, lacksResponses]
  generalize op.object = x at hobject ⊢
  generalize op'.object = x' at hobject ⊢
  cases hobject with
  | none => rfl
  | @some o o' h =>
      have hget := h.get? "responses".toList
      dsimp only
      generalize o.get? "responses".toList = y at hget ⊢
      generalize o'.get? "responses".toList = y' at hget ⊢
      cases hget with
      | none => rfl
      | @some e e' he =>
          have hvalue := ObjectEntry.seen_object? ht he
          dsimp only
          generalize e.object? t = z at hvalue ⊢
          generalize e'.object? (uncomment t) = z' at hvalue ⊢
          cases hvalue with
          | none => rfl
          | some h =>
              rw [Option.any_some, Option.any_some, Bool.eq_iff_iff,
                List.isEmpty_iff_length_eq_zero,
                List.isEmpty_iff_length_eq_zero, h.entries.length_eq]

end Spec

end Reading

/-! ## The specification -/

/-- Two specifications, read with the comments and without them, that declare the same. -/
structure Spec.Alike (t : Text) (spec spec' : Spec) : Prop where
  name : spec'.name = spec.name
  declaredAt : spec'.declaredAt = spec.declaredAt
  openAt : spec'.literal.openAt = spec.literal.openAt
  closeAt : spec'.literal.closeAt = spec.literal.closeAt
  operationKeys : spec'.operationKeys (uncomment t) = spec.operationKeys t
  schemaNames : spec'.schemaNames (uncomment t) = spec.schemaNames t
  withoutRequestBody (policy : Policy) :
    (spec'.withoutRequestBody (uncomment t) policy).map (fun o => (o.method, o.path, o.keyAt)) =
      (spec.withoutRequestBody t policy).map fun o => (o.method, o.path, o.keyAt)
  withoutResponses :
    (spec'.withoutResponses (uncomment t)).map (fun o => (o.method, o.path, o.keyAt)) =
      (spec.withoutResponses t).map fun o => (o.method, o.path, o.keyAt)

namespace Spec

variable {spec spec' : Spec}

theorem alike_of_seen (ht : Legible t) (hname : spec'.name = spec.name)
    (hat : spec'.declaredAt = spec.declaredAt) (h : spec.literal.Seen t spec'.literal) :
    Alike t spec spec' := by
  have hoperations := seen_operations ht h
  have hplace : ∀ {o o' : SpecOperation}, o.Seen t o' →
      (o.method, o.path, o.keyAt) = (o'.method, o'.path, o'.keyAt) := fun h => by
    rw [h.method, h.path, h.keyAt]
  refine ⟨hname, hat, h.openAt, h.closeAt, ?_, schemaNames_uncommented ht h, fun policy => ?_, ?_⟩
  · refine (map_eq_of_forall₂ hoperations fun _ _ h => ?_).symm
    rw [SpecOperation.key, SpecOperation.key, h.method, h.path]
  · refine (map_eq_of_forall₂ (List.rel_filter (fun _ _ h => ?_) hoperations) fun _ _ =>
      hplace).symm
    exact iff_of_eq (congrArg (· = true) (lacksRequestBody_seen policy h).symm)
  · refine (map_eq_of_forall₂ (List.rel_filter (fun _ _ h => ?_) hoperations) fun _ _ =>
      hplace).symm
    exact iff_of_eq (congrArg (· = true) (lacksResponses_seen ht h).symm)

theorem ofMatch?_uncommented (ht : Legible t) (hm : m ∈ declaration.all t) :
    Option.Rel (Alike t) (ofMatch? (.of t) m) (ofMatch? (.of (uncomment t)) m) := by
  rw [ofMatch?, ofMatch?, isCodeAt_uncomment]
  by_cases hcode : (Source.of t).isCodeAt m.start = true
  · rw [if_pos hcode, if_pos hcode]
    have hread := ObjectLiteral.seen_readAt? ht (.declared hm hcode)
    rw [show (Source.of t).text = t from rfl, show (Source.of (uncomment t)).text =
      uncomment t from rfl]
    generalize ObjectLiteral.readAt? t (m.stop - 1) = x at hread ⊢
    generalize ObjectLiteral.readAt? (uncomment t) (m.stop - 1) = x' at hread ⊢
    cases hread with
    | none => exact .none
    | some h =>
        dsimp only
        rw [h.hasKey, h.hasKey]
        split_ifs
        · exact .some (alike_of_seen ht rfl rfl h)
        · exact .none
  · rw [if_neg hcode, if_neg hcode]
    exact .none

theorem ofMatch?_covered (hm : m ∈ declaration.all t) (h : m.Covered t) :
    ofMatch? (.of t) m = none := by
  have hin := Pattern.in_of_mem_all hm
  have hcode := h.isCodeAt hin.bounds.start (Nat.le_refl _) (Pattern.start_lt_stop hin rfl)
  rw [ofMatch?, if_neg (by rw [hcode]; exact Bool.false_ne_true)]

theorem find?_uncommented (hd : declaration.Spared t) (ht : Legible t) :
    Option.Rel (Alike t) (find? (.of t)) (find? (.of (uncomment t))) := by
  rw [find?, find?, show (Source.of (uncomment t)).text = uncomment t from rfl,
    Pattern.all_uncomment rfl rfl hd]
  have hall : ∀ l : List Match, (∀ m ∈ l, m ∈ declaration.all t) →
      Option.Rel (Alike t) (l.findSome? (ofMatch? (.of t)))
        ((l.filter fun m => m.Clear t).findSome? (ofMatch? (.of (uncomment t)))) := by
    intro l hl
    induction l with
    | nil => exact .none
    | cons m l ih =>
        obtain ⟨hm, hl⟩ := List.forall_mem_cons.mp hl
        have ih := ih hl
        by_cases hclear : m.Clear t
        · rw [List.filter_cons_of_pos (by simpa using hclear), List.findSome?_cons,
            List.findSome?_cons]
          have hsame := ofMatch?_uncommented ht hm
          generalize ofMatch? (.of t) m = x at hsame ⊢
          generalize ofMatch? (.of (uncomment t)) m = x' at hsame ⊢
          cases hsame with
          | none => exact ih
          | some h => exact .some h
        · rw [List.filter_cons_of_neg (by simpa using hclear), List.findSome?_cons,
            ofMatch?_covered hm ((hd.text m hm).resolve_left hclear)]
          exact ih
  exact hall _ fun _ h => h

end Spec

instance (t : Text) (b : Bracket) (n : Nat) : Decidable (OpensAt t b n) :=
  decidable_of_iff (∃ x ∈ visits t, x.1 = ⟨n, b.opener, .code⟩ ∧ x.2.regions = [])
    ⟨fun ⟨⟨_, s⟩, hx, hmark, hregions⟩ => ⟨s, hmark ▸ hx, hregions⟩,
      fun ⟨_, hx, hregions⟩ => ⟨_, hx, rfl, hregions⟩⟩

instance (t : Text) (n : Nat) : Decidable (ObjectLiteral.Readable t n) :=
  inferInstanceAs (Decidable (_ → _ ∧ _))

/-- What is closed under reading on holds every place that is reached. -/
theorem Spec.legible_of_places (l : List Nat)
    (hdeclared : ∀ m ∈ declaration.all t, (Source.of t).isCodeAt m.start = true → m.stop - 1 ∈ l)
    (hvalue : ∀ n ∈ l, ∀ o ∈ ObjectLiteral.readAt? t n, ∀ e ∈ o.entries, e.valueStart ∈ l)
    (h : ∀ n ∈ l, ObjectLiteral.Readable t n) : Legible t := by
  intro n hn
  have hmem : n ∈ l := by
    induction hn with
    | declared hm hcode => exact hdeclared _ hm hcode
    | value _ hread he ih => exact hvalue _ ih _ hread _ he
  exact h n hmem

/-! ## Both -/

/-- What is read of an import statement, its place apart. -/
def ImportStatement.parts (i : ImportStatement) :
    Option Text × Option Text × List ImportMember × Text :=
  (i.defaultName, i.namespaceName, i.members, i.moduleName)

/-- A comment in the braces of an import is read as names. -/
theorem not_always_uncommented :
    ¬ ∀ t : Text, (ImportStatement.all (.of (uncomment t))).map ImportStatement.parts =
          (ImportStatement.all (.of t)).map ImportStatement.parts ∧
        Option.Rel (Spec.Alike t) (Spec.find? (.of t)) (Spec.find? (.of (uncomment t))) := by
  intro h
  have himports := (h "import \x7b a, /* b */ c \x7d from 'x';\n".toList).1
  revert himports
  decide +kernel

/-- Where no import statement and no declaration is comment in part, and no comment stands right
behind a key or its colon in what the specification is read from, the comments do not change what is
read. -/
theorem read_uncommented (himports : ImportStatement.pattern.Spared t)
    (hdeclarations : Spec.declaration.Spared t) (hliterals : Spec.Legible t) :
    ImportStatement.all (.of (uncomment t)) = ImportStatement.all (.of t) ∧
      Option.Rel (Spec.Alike t) (Spec.find? (.of t)) (Spec.find? (.of (uncomment t))) :=
  ⟨imports_uncommented himports, Spec.find?_uncommented hdeclarations hliterals⟩

/-- A text with comments around its statements, in front of a key and behind a value. -/
def commented : Text :=
  "/*\nimport z from 'z'\n*/\nimport \x7b a \x7d from 'x'; // y\nconst s = \x7b swagger: 2, /* k */ paths: \x7b '/a': \x7b get: \x7b\x7d /* v */ \x7d \x7d \x7d;\n".toList

set_option maxRecDepth 1024 in
theorem legible_commented : Spec.Legible commented := by
  have hchars : commented = _ := String.toList_ofList
  rw [hchars]
  refine Spec.legible_of_places [62, 73, 91, 99, 106] ?_ ?_ ?_
  · decide
  · decide
  · decide

set_option maxRecDepth 1024 in
theorem read_uncommented_commented :
    ImportStatement.pattern.Spared commented ∧ Spec.declaration.Spared commented ∧
      Spec.Legible commented ∧ uncomment commented ≠ commented ∧
      ImportStatement.all (.of (uncomment commented)) = ImportStatement.all (.of commented) ∧
      Option.Rel (Spec.Alike commented) (Spec.find? (.of commented))
        (Spec.find? (.of (uncomment commented))) := by
  have hchars : commented = _ := String.toList_ofList
  obtain ⟨himports, hdeclarations, hdiffers⟩ : ImportStatement.pattern.Spared commented ∧
      Spec.declaration.Spared commented ∧ uncomment commented ≠ commented := by
    rw [hchars]
    decide
  obtain ⟨hsame, hspec⟩ := read_uncommented himports hdeclarations legible_commented
  exact ⟨himports, hdeclarations, legible_commented, hdiffers, hsame, hspec⟩

end ServiceGate
