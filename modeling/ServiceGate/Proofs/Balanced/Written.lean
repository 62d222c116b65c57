/-
# What the repairs write

The text of a specification, of an operation and of an endpoint is closed, whatever the paths, the
policy and the names in the text are.  A path and a summary are quoted with their quotes escaped,
and the name of a schema is made of letters and numbers in upper and lower case, none of which is a
sign of the source language (`isBare_of_expectedSchema?`).

What is written is put together from fixed text, from quoted text and from names, so closedness goes
by the way it is put together: `closed_entry` for a key with its value, `closed_braced` and
`closed_lined` for the two layouts of a literal, `closed_call` for a call of the response.  The page
of the documentation is written between two quotes as it is, and has neither a quote nor a backslash
(`notMem_docsPage`).
-/
import ServiceGate.Proofs.Balanced.Replaced
import ServiceGate.Proofs.ObjectLiteral.Braced
import ServiceGate.Proofs.Repair.Synthesis
import ServiceGate.Repair.Endpoints

namespace ServiceGate

open Pattern Scan

variable {key value schema method path t w : Text} {parts : List Text} {policy : Policy}

/-! ## Names and quotes -/

theorem IsBare.solid {top : Bool} (h : IsBare w) : Solid top w := solid_of_notMem_signs h.chars

theorem IsBare.closed (h : IsBare w) : Closed w := by
  have hsolid : Solid true w := h.solid
  exact hsolid.closed

theorem IsBare.append {u : Text} (h : IsBare w) (hu : IsBare u) : IsBare (w ++ u) where
  ne_nil hnil := h.ne_nil (List.append_eq_nil_iff.mp hnil).1
  chars c hc := (List.mem_append.mp hc).elim (h.chars c) (hu.chars c)

theorem quotedBody_of_notMem {q : Char} : ∀ {w : Text}, q ∉ w → '\\' ∉ w → QuotedBody q w
  | [], _, _ => .nil
  | c :: w, hq, hb => by
      obtain ⟨hqc, hqw⟩ := not_or.mp (mt List.mem_cons.mpr hq)
      obtain ⟨hbc, hbw⟩ := not_or.mp (mt List.mem_cons.mpr hb)
      exact .char (Ne.symm hqc) (Ne.symm hbc) (quotedBody_of_notMem hqw hbw)

theorem closed_quoted {q : Char} (hq : q = '\'' ∨ q = '"') (h : q ∉ w) (hb : '\\' ∉ w) :
    Closed (q :: (w ++ [q])) := by
  have hsolid : Solid true (q :: (w ++ [q])) := .quoted hq (quotedBody_of_notMem h hb)
  exact hsolid.closed

theorem closed_encode (t : Text) : Closed (Quoted.encode t) := by
  have hsolid : Solid true (Quoted.encode t) := solid_encode t
  exact hsolid.closed

/-! ## Lists between braces -/

theorem closed_join (h : ∀ part ∈ parts, Closed part) : Closed (Text.join ", ".toList parts) := by
  have hcomma : Closed ", ".toList := closed_of_isClosed (by decide)
  induction parts with
  | nil => exact .nil
  | cons part parts ih =>
      obtain ⟨hpart, hparts⟩ := List.forall_mem_cons.mp h
      cases parts with
      | nil => simpa [Text.join, List.intercalate] using hpart
      | cons next parts =>
          have hrest := (hpart.append hcomma).append (ih hparts)
          simpa [Text.join, List.intercalate] using hrest

theorem braced_of_closed (h : ∀ part ∈ parts, Closed part) : Braced (Spec.braced parts) := by
  have hblank : Closed [' '] := closed_of_isSpace (by decide)
  have htext : Spec.braced parts = '\x7b' ::
      ([' '] ++ Text.join ", ".toList parts ++ [' '] ++ ['\x7d']) := by
    simp [Spec.braced]
  rw [htext]
  exact ((hblank.append (closed_join h)).append hblank).braced

theorem closed_braced (h : ∀ part ∈ parts, Closed part) : Closed (Spec.braced parts) :=
  (braced_of_closed h).smooth.closed

theorem closed_entry (hkey : Closed key) (hvalue : Closed value) : Closed (Spec.entry key value) :=
  (hkey.append (closed_of_isClosed (by decide))).append hvalue

theorem closed_lined {indent outer : Text} (hindent : Blank indent) (houter : Blank outer)
    (h : ∀ part ∈ parts, Closed part) : Closed (lined indent outer parts) := by
  have hblank : ∀ {t : Text}, Blank t → Closed t := fun ht => by
    have hsolid : Solid true _ := ht.solid
    exact hsolid.closed
  have hlines : Closed (parts.flatMap (line indent)) := by
    induction parts with
    | nil => exact .nil
    | cons part parts ih =>
        obtain ⟨hpart, hparts⟩ := List.forall_mem_cons.mp h
        rw [List.flatMap_cons]
        exact (((hblank hindent).append hpart).append (closed_of_isClosed (by decide))).append
          (ih hparts)
  exact .group .brace (((hblank (by decide)).append hlines).append (hblank houter))

/-! ## Names of schemas -/

theorem notMem_signs_of_isAlphanumeric {c : Char} (h : CharClass.isAlphanumeric c = true) :
    c ∉ CharClass.signs := by
  have hsigns : ∀ d ∈ CharClass.signs, CharClass.isAlphanumeric d = false := by decide
  intro hc
  rw [hsigns c hc] at h
  cases h

set_option maxRecDepth 2000 in
theorem notMem_signs_of_mem_upperChar {c d : Char} (hc : CharClass.isAlphanumeric c = true)
    (hd : d ∈ LetterCase.upperChar c) : d ∉ CharClass.signs := by
  by_cases hascii : c.toNat < 128
  · exact fun hsign => CharClass.isName_ne (Resource.isName_of_mem_upperChar hascii hc hd) hsign rfl
  -- few of the capitals are ASCII characters
  rw [LetterCase.upperChar, if_neg hascii] at hd
  exact CharClass.notMem_signs_of_mem_mapChar (by decide) (by decide)
    (notMem_signs_of_isAlphanumeric hc) hd

theorem isBare_of_ofPath? {resource : Text} (h : Resource.ofPath? path = some resource) :
    IsBare resource := by
  rw [Resource.ofPath?] at h
  cases hsegment : RoutePath.lastStatic? path with
  | none => rw [hsegment] at h; cases h
  | some segment =>
      rw [hsegment] at h
      obtain ⟨hne, rfl⟩ : (Resource.pascalCase (Resource.singular segment)).isEmpty = false ∧
          Resource.pascalCase (Resource.singular segment) = resource := by simpa using h
      refine ⟨by simpa using hne, fun c hc => ?_⟩
      obtain ⟨d, -, halnum, hc⟩ := Resource.exists_of_mem_pascalCase hc
      rcases hc with rfl | hc
      · exact notMem_signs_of_isAlphanumeric halnum
      · exact notMem_signs_of_mem_upperChar halnum hc

theorem isBare_of_expectedSchema? (h : Spec.expectedSchema? policy method path = some schema) :
    IsBare schema := by
  have hprefix : IsBare "Create".toList ∧ IsBare "Update".toList := by decide
  rw [Spec.expectedSchema?] at h
  cases hresource : Resource.ofPath? path with
  | none =>
      rw [hresource] at h
      split_ifs at h
  | some resource =>
      have hbare := isBare_of_ofPath? hresource
      rw [hresource] at h
      simp only at h
      split_ifs at h
      · rw [← Option.some.inj h]
        exact hprefix.1.append hbare
      · rw [← Option.some.inj h]
        exact hprefix.2.append hbare

/-! ## Operations -/

theorem braced_renderResponses : Braced (Spec.renderResponses policy method path) := by
  obtain ⟨body, hbody, hfields⟩ :=
    isObject_braced (responseEntries policy method path) responseEntries_ne_nil
  rw [renderResponses_eq, hbody]
  exact hfields.solid.closed.braced

theorem braced_renderRequestBody (h : IsBare schema) : Braced (Spec.renderRequestBody schema) := by
  have hkeys : ∀ key ∈ ["required", "true", "content", "'application/json'", "schema", "$ref"],
      Closed key.toList := fun key hkey => closed_of_isClosed (by revert key; decide)
  have href : Closed ('\'' :: ("#/components/schemas/".toList ++ schema ++ ['\''])) := by
    have hhead : '\'' ∉ "#/components/schemas/".toList ∧ '\\' ∉ "#/components/schemas/".toList := by
      decide
    refine closed_quoted (.inl rfl) (fun hmem => ?_) fun hmem => ?_
    · exact (List.mem_append.mp hmem).elim hhead.1 fun hc => h.chars _ hc (by decide)
    · exact (List.mem_append.mp hmem).elim hhead.2 fun hc => h.chars _ hc (by decide)
  have hone : ∀ {key value : Text}, Closed key → Closed value →
      Closed (Spec.braced [Spec.entry key value]) := fun hkey hvalue =>
    closed_braced (List.forall_mem_singleton.mpr (closed_entry hkey hvalue))
  have hcontent := hone (hkeys "'application/json'" (by decide))
    (hone (hkeys "schema" (by decide)) (hone (hkeys "$ref" (by decide)) href))
  refine braced_of_closed (List.forall_mem_cons.mpr ⟨?_, List.forall_mem_singleton.mpr ?_⟩)
  · exact closed_entry (hkeys "required" (by decide)) (hkeys "true" (by decide))
  · exact closed_entry (hkeys "content" (by decide)) hcontent

theorem braced_renderOperation : Braced (Spec.renderOperation policy method path) := by
  have hkeys : ∀ key ∈ ["summary", "requestBody", "responses"], Closed key.toList :=
    fun key hkey => closed_of_isClosed (by revert key; decide)
  refine braced_of_closed fun part hpart => ?_
  rcases List.mem_append.mp hpart with hpart | hpart
  · rcases List.mem_cons.mp hpart with rfl | hpart
    · exact closed_entry (hkeys "summary" (by decide)) (closed_encode _)
    · obtain ⟨schema, hschema, rfl⟩ := Option.map_eq_some_iff.mp (Option.mem_toList.mp hpart)
      exact closed_entry (hkeys "requestBody" (by decide))
        (braced_renderRequestBody (isBare_of_expectedSchema? hschema)).smooth.closed
  · rw [List.mem_singleton.mp hpart]
    exact closed_entry (hkeys "responses" (by decide)) braced_renderResponses.smooth.closed

theorem closed_pathObject {methods : List Text} (h : ∀ m ∈ methods, IsBare m) :
    Closed (Spec.pathObject policy path methods) := by
  refine closed_lined (by decide) (by decide) fun part hpart => ?_
  obtain ⟨m, hm, rfl⟩ := List.mem_map.mp hpart
  exact closed_entry (h m hm).closed braced_renderOperation.smooth.closed

theorem closed_specFor {routes : List Route} (h : ∀ r ∈ routes, IsBare r.method) :
    Closed (Repair.specFor policy routes) := by
  have hkeys : ∀ key ∈ ["paths", "components", "schemas"], Closed key.toList :=
    fun key hkey => closed_of_isClosed (by revert key; decide)
  have hpaths : Closed (Spec.pathsObject policy (Repair.methodsByPath routes)) := by
    refine closed_lined (by decide) (by decide) fun part hpart => ?_
    obtain ⟨x, hx, rfl⟩ := List.mem_map.mp hpart
    refine closed_entry (closed_encode _) (closed_pathObject fun m hm => ?_)
    obtain ⟨r, hr, -, rfl⟩ := Repair.exists_of_mem_methodsByPath hx hm
    exact h r hr
  have hschemas : Closed (Spec.schemasObject (Repair.schemasOf policy routes)) := by
    refine closed_lined (by decide) (by decide) fun part hpart => ?_
    obtain ⟨name, hname, rfl⟩ := List.mem_map.mp hpart
    obtain ⟨r, -, hschema⟩ := Repair.mem_schemasOf.mp hname
    exact closed_entry (isBare_of_expectedSchema? hschema).closed (closed_of_isClosed (by decide))
  have hcomponents : Closed (Spec.componentsObject (Repair.schemasOf policy routes)) :=
    closed_lined (by decide) (by decide) (List.forall_mem_singleton.mpr
      (closed_entry (hkeys "schemas" (by decide)) hschemas))
  have hfields : ∀ x ∈ Spec.specFields policy (Repair.methodsByPath routes)
      (Repair.schemasOf policy routes), Closed (Spec.entry x.1 x.2) := by
    simp only [Spec.specFields, List.forall_mem_cons, List.not_mem_nil, false_imp_iff, implies_true,
      and_true]
    exact ⟨closed_of_isClosed (by decide), closed_of_isClosed (by decide),
      closed_entry (hkeys "paths" (by decide)) hpaths,
      closed_entry (hkeys "components" (by decide)) hcomponents⟩
  have hobject : Closed (Spec.specObject policy (Repair.methodsByPath routes)
      (Repair.schemasOf policy routes)) := by
    refine closed_lined (by decide) (by decide) fun part hpart => ?_
    obtain ⟨x, hx, rfl⟩ := List.mem_map.mp hpart
    exact hfields x hx
  rw [Spec.specFor_eq]
  exact ((closed_of_isClosed (by decide)).append hobject).append (closed_of_isClosed (by decide))

/-! ## Endpoints -/

theorem notMem_docsPage : '\'' ∉ Endpoint.docsPage.toList ∧ '\\' ∉ Endpoint.docsPage.toList := by
  obtain ⟨a, b, c, d, e, f, hpage, hparts⟩ : ∃ a b c d e f : List Char,
      Endpoint.docsPage =
          .ofList a ++ .ofList b ++ .ofList c ++ .ofList d ++ .ofList e ++ .ofList f ∧
        ∀ part ∈ [a, b, c, d, e, f], '\'' ∉ part ∧ '\\' ∉ part :=
    ⟨_, _, _, _, _, _, rfl, by decide⟩
  have htext : Endpoint.docsPage.toList = [a, b, c, d, e, f].flatten := by
    rw [hpage]
    simp
  rw [htext, List.mem_flatten, List.mem_flatten]
  constructor
  · rintro ⟨part, hpart, hmem⟩
    exact (hparts part hpart).1 hmem
  · rintro ⟨part, hpart, hmem⟩
    exact (hparts part hpart).2 hmem

theorem closed_call {head arg : Text} (hhead : Closed head) (harg : Closed arg) :
    Closed (head ++ '(' :: (arg ++ [')']) ++ [';']) :=
  (hhead.append (.group .paren harg)).append (closed_of_isClosed (by decide))

theorem closed_docsBody (name : Text) : Closed (Endpoint.docs.body name) := by
  have htext : "res.type('html').send('".toList = "res.type('html').send".toList ++
      ['(', '\''] := by
    decide
  have hend : "');".toList = ['\'', ')', ';'] := by decide
  have hwhole : ∀ page : Text, '\'' ∉ page → '\\' ∉ page →
      Closed ("res.type('html').send('".toList ++ page ++ "');".toList) :=
      fun page hquote hescape => by
    have hcall := closed_call (closed_of_isClosed (t := "res.type('html').send".toList) (by decide))
      (closed_quoted (.inl rfl) hquote hescape)
    rw [htext, hend]
    simpa using hcall
  exact hwhole _ notMem_docsPage.1 notMem_docsPage.2

theorem closed_specBody {name : Text} (hname : IsBare name) : Closed (Endpoint.spec.body name) := by
  have htext : "res.json(".toList = "res.json".toList ++ ['('] := by decide
  have hend : ");".toList = [')', ';'] := by decide
  have hcall := closed_call (closed_of_isClosed (t := "res.json".toList) (by decide)) hname.closed
  show Closed ("res.json(".toList ++ name ++ ");".toList)
  rw [htext, hend]
  simpa using hcall

theorem closed_body (e : Endpoint) {name : Text} (hname : IsBare name) : Closed (e.body name) := by
  have hfixed : ∀ e ∈ [Endpoint.health, .root], isClosed (e.body []) = true := by decide
  cases e with
  | health => exact closed_of_isClosed (hfixed .health (by decide))
  | root => exact closed_of_isClosed (hfixed .root (by decide))
  | docs => exact closed_docsBody name
  | spec => exact closed_specBody hname

theorem closed_render (e : Endpoint) {receiver name : Text} (hreceiver : IsBare receiver)
    (hname : IsBare name) : Closed (e.render receiver name) := by
  have hpath : Closed ('\'' :: (e.path.toList ++ ['\''])) := by
    cases e <;> exact closed_of_isClosed (by decide)
  have hbody : Closed ('\x7b' :: ("\n  ".toList ++ e.body name ++ ['\n'] ++ ['\x7d'])) :=
    .group .brace (((closed_of_isSpace (by decide)).append (closed_body e hname)).append
      (closed_of_isSpace (by decide)))
  have hargs :=
    (hpath.append (closed_of_isClosed (t := ", (_req: Request, res: Response) => ".toList)
    (by decide))).append hbody
  have hcall :=
    closed_call (hreceiver.closed.append (closed_of_isClosed (t := ".get".toList) (by decide)))
    hargs
  have htext : "', (_req: Request, res: Response) => \x7b\n  ".toList =
      '\'' :: ", (_req: Request, res: Response) => ".toList ++ '\x7b' :: "\n  ".toList := by decide
  have hstart : ".get('".toList = ".get".toList ++ ['(', '\''] := by decide
  have hend : "\n\x7d);".toList = ['\n', '\x7d', ')', ';'] := by decide
  rw [Endpoint.render, htext, hstart, hend]
  simpa using hcall

end ServiceGate
