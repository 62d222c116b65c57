/-
# Texts that declare nothing

A declaration of a variable and an import start with a word that white space follows.  A text is
`Inert` if its code, blanked but for what it holds in code, has no such word, whatever follows the
text.  Inert texts in a row are inert, and so are the lists and literals that are made of them.
What a new specification says behind its name is one of them (`Inert.specObject`): every key has its
colon, and what is taken from a route stands in quotes or is the name of a schema, in which no case
form is white space.

The condition is on two characters in a row: `Opens` holds of a letter that one of the words ends
with and of white space behind it.  So it can be checked along the blanked text, and at a seam only
the last character of the text in front matters (`Inert.append`).  Declarations and imports that
start with such a word would need a pair that is nowhere in the text.
-/
import ServiceGate.Proofs.Balanced.Written
import ServiceGate.Proofs.Repair.Exported

namespace ServiceGate

open Pattern Scan

variable {p q u v w t value method path schema : Text} {c d : Char} {parts : List Text}
  {policy : Policy} {s : State} {ms : List Mark}

/-! ## Blanking stretch by stretch -/

/-- Behind a part that leaves the scan in code outside of templates the rest is blanked by itself.
-/
theorem Scan.Reads.blank_append (h : Reads q .start 0 p ms s) (hs : s.Agrees .start) :
    blank (p ++ q) = blank p ++ blank q := by
  have hshift := marksFrom_shift (Text.size p) q .start 0
  rw [Nat.add_zero] at hshift
  rw [blank, marks_cut h, List.flatMap_append, ← marksFrom_agrees q _ hs, hshift, List.flatMap_map,
    h.eq_marksFrom, blank, blank, marks_zero, marks_zero]
  rfl

theorem Scan.EndsInCode.blank_append (h : EndsInCode p) (q : Text) :
    blank (p ++ q) = blank p ++ blank q :=
  (reads_of_after p 0 h.1.1 h.2 q).blank_append h.1

/-- A closed stretch at a place in code is blanked by itself. -/
theorem Scan.Closed.blank_append (hp : EndsInCode p) (hv : Closed v) (q : Text) :
    blank (p ++ v ++ q) = blank p ++ blank v ++ blank q := by
  obtain ⟨ms, s, hreads, hs, -⟩ := hv q _ (0 + Text.size p) hp.1
  have hwhole := (reads_of_after p 0 hp.1.1 hp.2 (v ++ q)).append hreads
  rw [hwhole.blank_append hs, hp.blank_append]

theorem Scan.EndsInCode.after_append (h : EndsInCode p) (q : Text) :
    (State.start.after (p ++ q)).Agrees (State.start.after q) := by
  rw [(reads_of_after p 0 h.1.1 h.2 q).after_eq]
  exact State.after_agrees q h.1

theorem Scan.EndsInCode.then (h : EndsInCode p) (h' : EndsInCode q) : EndsInCode (p ++ q) := by
  refine ⟨(h.after_append q).trans h'.1, fun hlast => ?_⟩
  rw [List.getLast?_append] at hlast
  cases hq : q.getLast? with
  | none =>
      rw [hq] at hlast
      exact h.2 hlast
  | some c =>
      rw [hq] at hlast
      exact h'.2 (hq.trans hlast)

/-! ## Inert texts -/

/-- White space behind a letter that `import`, `const`, `let` or `var` ends with. -/
def Opens (c d : Char) : Prop := (c = 't' ∨ c = 'r') ∧ CharClass.isSpace d = true

instance (c d : Char) : Decidable (Opens c d) := inferInstanceAs (Decidable (_ ∧ _))

/-- A text in whose code nothing opens a declaration or an import, whatever follows. -/
structure Inert (w : Text) : Prop where
  ends : EndsInCode w
  chain : (blank w).IsChain fun c d => ¬ Opens c d
  last : ∀ c ∈ (blank w).getLast?, c ≠ 't' ∧ c ≠ 'r'

instance (w : Text) : Decidable (Inert w) :=
  decidable_of_iff (EndsInCode w ∧ (blank w).IsChain (fun c d => ¬ Opens c d) ∧
      ∀ c ∈ (blank w).getLast?, c ≠ 't' ∧ c ≠ 'r')
    ⟨fun h => ⟨h.1, h.2.1, h.2.2⟩, fun h => ⟨h.ends, h.chain, h.last⟩⟩

namespace Inert

theorem nil : Inert [] := by decide

theorem append (h : Inert u) (h' : Inert w) : Inert (u ++ w) where
  ends := h.ends.then h'.ends
  chain := by
    rw [h.ends.blank_append]
    exact List.isChain_append.mpr ⟨h.chain, h'.chain, fun c hc d _ hopens =>
      hopens.1.elim (h.last c hc).1 (h.last c hc).2⟩
  last c hc := by
    rw [h.ends.blank_append, List.getLast?_append] at hc
    cases hw : (blank w).getLast? with
    | none =>
        rw [hw] at hc
        exact h.last c hc
    | some d =>
        rw [hw] at hc
        exact h'.last c (hw ▸ hc)

theorem of_notMem (hends : EndsInCode w) (h : ∀ c ∈ blank w, c ≠ 't' ∧ c ≠ 'r') : Inert w where
  ends := hends
  chain := (List.pairwise_of_forall_mem_list fun c hc _ _ hopens =>
    hopens.1.elim (h c hc).1 (h c hc).2).isChain
  last c hc := h c (List.mem_of_getLast? hc)

theorem key (h : IsBare w) (hspace : ∀ c ∈ w, CharClass.isSpace c = false) :
    Inert (w ++ [':']) := by
  have hpure : PureCode (w ++ [':']) := pureCode_of_forall fun c hc => by
    have hsigns : c ∉ CharClass.signs ∨ c = ':' :=
      (List.mem_append.mp hc).imp (h.chars c) List.mem_singleton.mp
    rcases hsigns with hsigns | rfl
    · refine ⟨Bool.eq_false_iff.mpr fun hquote => hsigns ?_, fun heq => hsigns (heq ▸ by decide)⟩
      simp only [isQuote, Bool.or_eq_true, beq_iff_eq] at hquote
      rcases hquote with (rfl | rfl) | rfl <;> decide
    · decide
  have hends : EndsInCode (w ++ [':']) := by
    refine ⟨?_, by simp⟩
    rw [hpure.after_eq rfl rfl]
    exact ⟨rfl, rfl⟩
  refine ⟨hends, ?_, fun c hc => ?_⟩
  · rw [hpure.blank_eq]
    refine (List.pairwise_of_forall_mem_list fun c _ d hd hopens => ?_).isChain
    rcases List.mem_append.mp hd with hd | hd
    · exact Bool.false_ne_true ((hspace d hd).symm.trans hopens.2)
    · rw [List.mem_singleton.mp hd] at hopens
      exact absurd hopens.2 (by decide)
  · rw [hpure.blank_eq, List.getLast?_concat] at hc
    rw [← Option.some.inj hc]
    decide

theorem quoted {b : Text} (h : QuotedBody c b) (hc : c = '\'' ∨ c = '"') :
    Inert (c :: (b ++ [c])) := by
  have hreads : Reads [] .start 0 (c :: (b ++ [c]))
      (literals 0 (c :: (b ++ [c]))) ⟨.code, [], some c⟩ :=
    h.reads_string hc [] [] none 0
  have hslash : c ≠ '/' := by
    rintro rfl
    simp at hc
  refine of_notMem ⟨?_, ?_⟩ fun d hd => ?_
  · have hafter := hreads.after_eq
    rw [List.append_nil] at hafter
    rw [hafter]
    exact ⟨rfl, rfl⟩
  · rw [← List.cons_append, List.getLast?_concat]
    exact fun heq => hslash (Option.some.inj heq)
  · rw [blank, marks_zero, ← hreads.eq_marksFrom] at hd
    obtain ⟨m, hm, hd⟩ := List.mem_flatMap.mp hd
    rw [Mark.blank, kind_of_mem_literals hm] at hd
    have hblank : d = '\n' ∨ d = ' ' := by
      split at hd
      · next h => exact .inl ((List.mem_singleton.mp hd).trans (h.resolve_left Kind.noConfusion))
      · exact .inr (List.eq_of_mem_replicate hd)
    rcases hblank with rfl | rfl <;> decide

theorem encode (t : Text) : Inert (Quoted.encode t) := by
  have h := quoted (Quoted.quotedBody_escape t) (.inl rfl)
  exact h

/-! ## Lists between braces -/

theorem join (h : ∀ part ∈ parts, Inert part) : Inert (Text.join ", ".toList parts) := by
  have hcomma : Inert ", ".toList := by decide
  induction parts with
  | nil => exact .nil
  | cons part parts ih =>
      obtain ⟨hpart, hparts⟩ := List.forall_mem_cons.mp h
      cases parts with
      | nil => simpa [Text.join, List.intercalate] using hpart
      | cons next parts =>
          have hrest := (hpart.append hcomma).append (ih hparts)
          simpa [Text.join, List.intercalate] using hrest

theorem braced (h : ∀ part ∈ parts, Inert part) : Inert (Spec.braced parts) :=
  (Inert.append (by decide) (join h)).append (by decide)

theorem entry {key : Text} (hkey : Inert (key ++ [':'])) (hvalue : Inert value) :
    Inert (Spec.entry key value) := by
  have hspace : Inert [' '] := by decide
  have hwhole := (hkey.append hspace).append hvalue
  simpa [Spec.entry] using hwhole

theorem lined {indent outer : Text} (hindent : Inert indent) (houter : Inert outer)
    (h : ∀ part ∈ parts, Inert part) : Inert (lined indent outer parts) := by
  have hlines : Inert (parts.flatMap (line indent)) := by
    induction parts with
    | nil => exact .nil
    | cons part parts ih =>
        obtain ⟨hpart, hparts⟩ := List.forall_mem_cons.mp h
        rw [List.flatMap_cons]
        exact ((hindent.append hpart).append (by decide)).append (ih hparts)
  have hopen : Inert ['\x7b', '\n'] := by decide
  have hwhole := ((hopen.append hlines).append houter).append (w := ['\x7d']) (by decide)
  simpa [ServiceGate.lined] using hwhole

end Inert

/-! ## Names of schemas -/

theorem isSpace_of_expectedSchema? (h : Spec.expectedSchema? policy method path = some schema) :
    ∀ c ∈ schema, CharClass.isSpace c = false := by
  have hstart : (∀ c ∈ "Create".toList, CharClass.isSpace c = false) ∧
      ∀ c ∈ "Update".toList, CharClass.isSpace c = false := by decide
  rw [Spec.expectedSchema?] at h
  cases hresource : Resource.ofPath? path with
  | none =>
      rw [hresource] at h
      split_ifs at h
  | some resource =>
      have hspace : ∀ c ∈ resource, CharClass.isSpace c = false := by
        rw [Resource.ofPath?] at hresource
        cases hsegment : RoutePath.lastStatic? path with
        | none => rw [hsegment] at hresource; cases hresource
        | some segment =>
            rw [hsegment] at hresource
            obtain ⟨-, rfl⟩ : (Resource.pascalCase (Resource.singular segment)).isEmpty = false ∧
                Resource.pascalCase (Resource.singular segment) = resource := by
                  simpa using hresource
            intro c hc
            obtain ⟨d, -, halnum, hc⟩ := Resource.exists_of_mem_pascalCase hc
            have hd := CharClass.isSpace_of_isAlphanumeric halnum
            rcases hc with rfl | hc
            · exact hd
            · exact CharClass.isSpace_of_mem_upperChar hd hc
      rw [hresource] at h
      simp only at h
      split_ifs at h
      · rw [← Option.some.inj h]
        exact fun c hc => (List.mem_append.mp hc).elim (hstart.1 c) (hspace c)
      · rw [← Option.some.inj h]
        exact fun c hc => (List.mem_append.mp hc).elim (hstart.2 c) (hspace c)

/-! ## What is written for a specification -/

namespace Inert

theorem schemaKey (h : Spec.expectedSchema? policy method path = some schema) :
    Inert (schema ++ [':']) :=
  key (isBare_of_expectedSchema? h) (isSpace_of_expectedSchema? h)

theorem renderResponses : Inert (Spec.renderResponses policy method path) := by
  have hcolon : Inert [':'] := by decide
  rw [renderResponses_eq]
  refine braced fun part hpart => ?_
  obtain ⟨_, he, rfl⟩ := List.mem_map.mp hpart
  obtain ⟨x, -, rfl⟩ := List.mem_map.mp he
  have hkey : Inert ("description".toList ++ [':']) := by decide
  have hmeaning := entry hkey (encode x.2.toList)
  exact entry ((encode x.1.toList).append hcolon) (braced (List.forall_mem_singleton.mpr hmeaning))

theorem renderRequestBody (h : IsBare schema) : Inert (Spec.renderRequestBody schema) := by
  have hkeys : ∀ key ∈ ["required", "content", "'application/json'", "schema", "$ref"],
      Inert (key.toList ++ [':']) := by decide +kernel
  have hone : ∀ {key value : Text}, Inert (key ++ [':']) → Inert value →
      Inert (Spec.braced [Spec.entry key value]) := fun hkey hvalue =>
    braced (List.forall_mem_singleton.mpr (entry hkey hvalue))
  have href : Inert ('\'' :: ("#/components/schemas/".toList ++ schema ++ ['\''])) := by
    refine quoted (quotedBody_of_notMem (fun hmem => ?_) fun hmem => ?_) (.inl rfl)
    · exact (List.mem_append.mp hmem).elim (by decide) fun hc => h.chars _ hc (by decide)
    · exact (List.mem_append.mp hmem).elim (by decide) fun hc => h.chars _ hc (by decide)
  have hcontent := hone (hkeys "'application/json'" (by decide))
    (hone (hkeys "schema" (by decide)) (hone (hkeys "$ref" (by decide)) href))
  refine braced (List.forall_mem_cons.mpr ⟨?_, List.forall_mem_singleton.mpr ?_⟩)
  · exact entry (hkeys "required" (by decide)) (by decide)
  · exact entry (hkeys "content" (by decide)) hcontent

theorem renderOperation : Inert (Spec.renderOperation policy method path) := by
  have hkeys : ∀ key ∈ ["summary", "requestBody", "responses"], Inert (key.toList ++ [':']) := by
    decide +kernel
  refine braced fun part hpart => ?_
  rcases List.mem_append.mp hpart with hpart | hpart
  · rcases List.mem_cons.mp hpart with rfl | hpart
    · exact entry (hkeys "summary" (by decide)) (encode _)
    · obtain ⟨schema, hschema, rfl⟩ := Option.map_eq_some_iff.mp (Option.mem_toList.mp hpart)
      exact entry (hkeys "requestBody" (by decide))
        (renderRequestBody (isBare_of_expectedSchema? hschema))
  · rw [List.mem_singleton.mp hpart]
    exact entry (hkeys "responses" (by decide)) renderResponses

theorem pathObject {methods : List Text} (h : ∀ m ∈ methods, m ∈ Route.methodWords) :
    Inert (Spec.pathObject policy path methods) := by
  have hmethods : ∀ m ∈ Route.methodWords, Inert (m ++ [':']) := by decide +kernel
  refine lined (by decide) (by decide) fun part hpart => ?_
  obtain ⟨m, hm, rfl⟩ := List.mem_map.mp hpart
  exact entry (hmethods m (h m hm)) renderOperation

/-- The literal of a specification is inert whatever routes it is for. -/
theorem specObject {routes : List Route} (h : ∀ r ∈ routes, r.method ∈ Route.methodWords) :
    Inert (Spec.specObject policy (Repair.methodsByPath routes)
      (Repair.schemasOf policy routes)) := by
  have hkeys : ∀ key ∈ ["openapi", "info", "paths", "components", "schemas"],
      Inert (key.toList ++ [':']) := by
    decide +kernel
  have hcolon : Inert [':'] := by decide
  have hpaths : Inert (Spec.pathsObject policy (Repair.methodsByPath routes)) := by
    refine lined (by decide) (by decide) fun part hpart => ?_
    obtain ⟨x, hx, rfl⟩ := List.mem_map.mp hpart
    refine entry ((encode _).append hcolon) (pathObject fun m hm => ?_)
    obtain ⟨r, hr, -, rfl⟩ := Repair.exists_of_mem_methodsByPath hx hm
    exact h r hr
  have hschemas : Inert (Spec.schemasObject (Repair.schemasOf policy routes)) := by
    refine lined (by decide) (by decide) fun part hpart => ?_
    obtain ⟨name, hname, rfl⟩ := List.mem_map.mp hpart
    obtain ⟨r, -, hschema⟩ := Repair.mem_schemasOf.mp hname
    exact entry (schemaKey hschema) (by decide +kernel)
  have hcomponents : Inert (Spec.componentsObject (Repair.schemasOf policy routes)) :=
    lined (by decide) (by decide) (List.forall_mem_singleton.mpr
      (entry (hkeys "schemas" (by decide)) hschemas))
  have hfields : ∀ x ∈ Spec.specFields policy (Repair.methodsByPath routes)
      (Repair.schemasOf policy routes), Inert (Spec.entry x.1 x.2) := by
    simp only [Spec.specFields, List.forall_mem_cons, List.not_mem_nil, false_imp_iff, implies_true,
      and_true]
    exact ⟨by decide +kernel, by decide +kernel, entry (hkeys "paths" (by decide)) hpaths,
      entry (hkeys "components" (by decide)) hcomponents⟩
  refine lined (by decide) (by decide) fun part hpart => ?_
  obtain ⟨x, hx, rfl⟩ := List.mem_map.mp hpart
  exact hfields x hx

end Inert

end ServiceGate
