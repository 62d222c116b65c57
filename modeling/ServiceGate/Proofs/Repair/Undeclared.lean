/-
# Endpoints that the specification does not declare

The specification is made and completed before the endpoints are put in, so an endpoint that is no
part of the infrastructure is a route that no specification declares (`not_always_declared`).
Nothing else becomes undeclared by the last repairs, if what they put in is put between statements:
a route of the result that the specification lacks was there and lacking before, or it is an
endpoint that was put in (`undeclared_of_endpoints`).

Each of the last repairs puts in one or two stretches.  `Adds` says what they add to the routes of a
text, the declared operations staying the same; the run composes these statements.
-/
import ServiceGate.Proofs.Checked.Repair
import ServiceGate.Proofs.Repair.Imported
import ServiceGate.Proofs.Repair.Inserted
import ServiceGate.Proofs.Repair.Run

namespace ServiceGate

open Scan

variable {t u v : Text} {policy : Policy} {key : Text} {cs cs' : List (Text × Text)}

/-! ## What is added to the routes -/

/-- The operations that are declared stay the same, and the routes are those that were there and
some more. -/
structure Adds (cs : List (Text × Text)) (t u : Text) : Prop where
  declared : declaredKeys? u = declaredKeys? t
  calls : calls u ⊆ calls t ++ cs

namespace Adds

theorem refl (t : Text) : Adds [] t t := ⟨rfl, by rw [List.append_nil]; exact List.Subset.refl _⟩

theorem trans (h : Adds cs t u) (h' : Adds cs' u v) : Adds (cs ++ cs') t v where
  declared := h'.declared.trans h.declared
  calls := fun c hc => by
    have hfirst := @h.calls c
    have hsecond := h'.calls hc
    simp only [List.mem_append] at hfirst hsecond ⊢
    tauto

/-- What is undeclared behind was so before, or it is added. -/
theorem undeclared (h : Adds cs t u) (hkey : key ∈ undeclaredRoutes policy u) :
    key ∈ undeclaredRoutes policy t ∨ ∃ c ∈ cs,
      policy.isInfraPath (RoutePath.normalize c.2) = false ∧ RoutePath.key c.1 c.2 = key ∧
        ∀ keys ∈ declaredKeys? t, key ∉ keys := by
  obtain ⟨keys, hkeys, hnot, c, hc, hinfra, hsame⟩ := mem_undeclaredRoutes.mp hkey
  rw [h.declared] at hkeys
  rcases List.mem_append.mp (h.calls hc) with hc | hc
  · exact .inl (mem_undeclaredRoutes.mpr ⟨keys, hkeys, hnot, c, hc, hinfra, hsame⟩)
  · refine .inr ⟨c, hc, hinfra, hsame, fun keys' hkeys' => ?_⟩
    obtain rfl := Option.some.inj (hkeys.symm.trans hkeys')
    exact hnot

end Adds

/-! ## One edit -/

namespace Edit

/-- The edit spares the specification of the text. -/
def SparesIn (e : Edit) (t : Text) : Prop :=
  Spares (t.before e.start) (t.between e.start e.stop) e.new (t.after e.stop)

theorem adds (e : Edit) (hbounds : Text.Bounds t e.start e.stop) (h : e.SparesIn t)
    (hnew : Spec.declaration.within (t.before e.start).getLast? 0 e.new = []) :
    Adds ((Route.behind (t.before e.start).getLast? e.new).map Route.call) t (e.apply t) := by
  obtain ⟨start, stop, new⟩ := e
  obtain ⟨p, w, q, rfl, rfl, rfl⟩ := Text.bounds_iff.mp hbounds
  have hbefore : (p ++ w ++ q).before (Text.size p) = p := by
    rw [List.append_assoc, Text.before_append]
  have hafter : (p ++ w ++ q).after (Text.size p + Text.size w) = q := by
    rw [← Text.size_append, Text.after_append]
  rw [SparesIn, Text.between_append, hbefore, hafter] at h
  rw [apply, splice_append, hbefore]
  rw [hbefore] at hnew
  exact ⟨h.declaredKeys_eq hnew, h.calls_subset⟩

theorem adds_nil (e : Edit) (hbounds : Text.Bounds t e.start e.stop) (h : e.SparesIn t)
    (hnew : ∀ sign, sign = '(' ∨ sign = '=' → sign ∉ e.new) : Adds [] t (e.apply t) := by
  obtain ⟨hdeclares, hregisters⟩ := @silent_of_notMem _ (t.before e.start).getLast? hnew
  have hadds := e.adds hbounds h hdeclares
  rwa [hregisters] at hadds

end Edit

instance (e : Edit) (t : Text) : Decidable (e.SparesIn t) :=
  inferInstanceAs (Decidable (Spares _ _ _ _))

namespace Repair

/-! ## Imports -/

/-- The statement that names are added to, or the place of a new one, spares the specification, and
every import has names alone in its braces. -/
def ImportSpares (moduleName : Text) (others names : List Text) (t : Text) : Prop :=
  (∀ i ∈ ImportStatement.all (.of t), ∀ m ∈ i.members, m.IsPlain) ∧
    ∀ e ∈ importEdit? moduleName others names t, e.SparesIn t

theorem notMem_getD_render {i : ImportStatement} {sign : Char} (hi : i.Writable)
    (hmodule : IsBare i.moduleName) (hsign : sign = '(' ∨ sign = '=') :
    sign ∉ i.render.getD [] := by
  cases hline : i.render with
  | none => exact List.not_mem_nil
  | some line => exact hi.notMem_render hmodule hline hsign

theorem of_lineEdit {moduleName : Text} {members : List ImportMember} (hmodule : IsBare moduleName)
    (hmembers : ∀ m ∈ members, m.IsPlain) :
    let e := lineEdit (ImportStatement.all (.of t)) moduleName members
    Text.Bounds t e.start e.stop ∧ ∀ sign, sign = '(' ∨ sign = '=' → sign ∉ e.new := by
  have hline : ∀ sign, sign = '(' ∨ sign = '=' → sign ∉ ((ImportStatement.render ⟨0, 0, false, none,
      none, members, ((ImportStatement.all (.of t)).head?.map (·.quote)).getD '\'',
      moduleName⟩).getD []) :=
    fun _ hsign =>
      notMem_getD_render (writable_line isQuote_of_head? hmodule hmembers) hmodule hsign
  have hfeed : ∀ sign, sign = '(' ∨ sign = '=' → sign ≠ '\n' := by
    rintro sign (rfl | rfl) <;> decide
  rw [lineEdit]
  cases hlast : (ImportStatement.all (.of t)).getLast? with
  | some last =>
      have hplace := (bounds_of_mem_imports (s := .of t) (List.mem_of_getLast? hlast)).stop
      refine ⟨⟨Nat.le_refl _, hplace, hplace⟩, fun sign hsign hmem => ?_⟩
      exact (List.mem_cons.mp hmem).elim (hfeed sign hsign) (hline sign hsign)
  | none =>
      refine ⟨Text.bounds_to (Text.isBoundary_zero t), fun sign hsign hmem => ?_⟩
      exact (List.mem_append.mp hmem).elim (hline sign hsign) fun h =>
        hfeed sign hsign (List.mem_singleton.mp h)

theorem of_importEdit? {moduleName : Text} {others names : List Text} {e : Edit}
    (hplain : ∀ i ∈ ImportStatement.all (.of t), ∀ m ∈ i.members, m.IsPlain)
    (hmodules : ∀ name ∈ moduleName :: others, IsBare name) (hnames : ∀ name ∈ names, IsBare name)
    (h : importEdit? moduleName others names t = some e) :
    Text.Bounds t e.start e.stop ∧ ∀ sign, sign = '(' ∨ sign = '=' → sign ∉ e.new := by
  have hmembers :
      ∀ m ∈ (missingNames (ImportStatement.all (.of t)) (moduleName :: others) names).map
      ImportMember.named, m.IsPlain := by
    intro m hm
    obtain ⟨name, hname, rfl⟩ := List.mem_map.mp hm
    have hbare := hnames name (List.mem_filter.mp hname).1
    exact ⟨hbare, hbare⟩
  have hbackslash : ∀ {name : Text}, IsBare name → '\\' ∉ name := fun hname hmem =>
    hname.chars '\\' hmem (by decide)
  obtain ⟨_, rfl, -, h⟩ := eq_of_importEdit? h
  split at h
  · next i hfind =>
      subst h
      have hi := List.mem_of_find?_eq_some hfind
      have htakes := List.find?_some hfind
      have hmodule : IsBare i.moduleName := by
        simp only [takesMembers, Bool.and_eq_true] at htakes
        exact hmodules _ (List.contains_iff_mem.mp htakes.1.1)
      have hwritable := ImportStatement.writable_of_mem hi (hplain i hi) (hbackslash hmodule)
      refine ⟨bounds_of_mem_imports (s := .of t) hi, fun sign hsign => ?_⟩
      refine notMem_getD_render { hwritable with members := fun m hm => ?_ } hmodule hsign
      exact (List.mem_append.mp hm).elim (hwritable.members m) (hmembers m)
  · subst h
    exact of_lineEdit (hmodules moduleName List.mem_cons_self) hmembers

instance (moduleName : Text) (others names : List Text) (t : Text) :
    Decidable (ImportSpares moduleName others names t) :=
  inferInstanceAs (Decidable (_ ∧ ∀ e ∈ importEdit? moduleName others names t, e.SparesIn t))

theorem adds_ensureNamedImport {moduleName : Text} {others names : List Text}
    (h : ImportSpares moduleName others names t)
    (hmodules : ∀ name ∈ moduleName :: others, IsBare name) (hnames : ∀ name ∈ names, IsBare name) :
    Adds [] t (ensureNamedImport moduleName others names t) := by
  rw [ensureNamedImport_eq]
  cases hedit : importEdit? moduleName others names t with
  | none => exact .refl t
  | some e =>
      obtain ⟨hbounds, hnew⟩ := of_importEdit? h.1 hmodules hnames hedit
      exact e.adds_nil hbounds (h.2 e hedit) hnew

theorem adds_addImport {moduleName : String} {others names : List String}
    (ht : ImportSpares moduleName.toList (others.map String.toList) (names.map String.toList) t)
    (hmodules : ∀ name ∈ moduleName :: others, IsBare name.toList)
    (hnames : ∀ name ∈ names, IsBare name.toList)
    (h : addImport moduleName others names t = some u) :
    Adds [] t u := by
  rw [addImport] at h
  split_ifs at h
  obtain rfl := Option.some.inj h
  refine adds_ensureNamedImport ht (fun name hname => ?_) fun name hname => ?_
  · rw [← List.map_cons] at hname
    obtain ⟨word, hword, rfl⟩ := List.mem_map.mp hname
    exact hmodules word hword
  · obtain ⟨word, hword, rfl⟩ := List.mem_map.mp hname
    exact hnames word hword

/-! ## Endpoints -/

/-- What is put in for an endpoint behind the last route. -/
def endpointEdit (e : Endpoint) (t : Text) (last : Route) (n : Nat) : Edit :=
  ⟨n, n, "\n\n".toList ++ e.render last.receiver (specNameOf t)⟩

/-- The place behind the last route spares the specification, and so does the import behind it. -/
def EndpointSpares (e : Endpoint) (t : Text) : Prop :=
  ∀ last ∈ (Route.all (.of t)).getLast?, ∀ n ∈ last.statementStop? t,
    (endpointEdit e t last n).SparesIn t ∧
      ImportSpares Rule.express [] handlerTypes ((endpointEdit e t last n).apply t)

instance (e : Endpoint) (t : Text) : Decidable (EndpointSpares e t) :=
  inferInstanceAs (Decidable (∀ last ∈ (Route.all (.of t)).getLast?, ∀ n ∈ last.statementStop? t,
    _ ∧ _))

def endpointCall (e : Endpoint) : Text × Text := ("get".toList, e.path.toList)

theorem adds_injectEndpoint {e : Endpoint} (ht : EndpointSpares e t)
    (h : injectEndpoint e t = some u) :
    Adds [endpointCall e] t u := by
  obtain ⟨-, last, n, hlast, hn, rfl⟩ := exists_of_injectEndpoint h
  obtain ⟨hspares, himport⟩ := ht last hlast n hn
  have hplace := isBoundary_of_statementStop? hn
  have hreceiver := isBare_receiver (List.mem_of_getLast? hlast)
  have hname := isBare_specNameOf t
  have hput := (endpointEdit e t last n).adds ⟨Nat.le_refl n, hplace, hplace⟩ hspares
    (e.within_render hreceiver hname)
  have hcalls := @Endpoint.calls_render (t.before n).getLast? e _ _ hreceiver hname
  have hadds : Adds [endpointCall e] t ((endpointEdit e t last n).apply t) :=
    ⟨hput.declared, fun c hc => List.append_subset.mpr ⟨List.subset_append_left _ _,
      fun c hc => List.mem_append_right _ (hcalls hc)⟩ (hput.calls hc)⟩
  have hbare : ∀ name ∈ Rule.express :: handlerTypes, IsBare name := by decide
  obtain ⟨hmodule, hnames⟩ := List.forall_mem_cons.mp hbare
  exact hadds.trans (adds_ensureNamedImport himport (List.forall_mem_singleton.mpr hmodule) hnames)

/-! ## Exports -/

def endEdit (t u : Text) : Edit := ⟨Text.size t, Text.size t, u.after (Text.size t)⟩

/-- What is put behind the text spares the specification. -/
def EndSpares (t : Text) (out : Option Text) : Prop := ∀ u ∈ out, (endEdit t u).SparesIn t

theorem adds_appendStatement {name : Text} (hname : IsBare name) (h : EndSpares t (some u))
    (hu : appendStatement t (exportOf name) = u) : Adds [] t u := by
  obtain ⟨gap, hgap, hcut⟩ : ∃ gap : Text, (∀ c ∈ gap, c = '\n') ∧
      u = t ++ (gap ++ '\n' :: exportOf name ++ ['\n']) := by
    rw [← hu, appendStatement]
    split_ifs
    · exact ⟨[], by simp, by simp⟩
    · exact ⟨['\n'], by simp, by simp⟩
  have hspares := h u rfl
  have hsame : (endEdit t u).apply t = u := by
    have hbefore := Text.before_append t []
    have hafter := Text.after_append t []
    rw [List.append_nil] at hbefore hafter
    rw [Edit.apply, endEdit, Text.splice, hbefore, hafter, hcut, Text.after_append, List.append_nil]
  have hplace := Text.isBoundary_size t
  have hadds :=
    (endEdit t u).adds_nil ⟨Nat.le_refl _, hplace, hplace⟩ hspares fun sign hsign hmem => by
    have hfeed : sign ≠ '\n' := by rcases hsign with rfl | rfl <;> decide
    rw [endEdit, hcut, Text.after_append] at hmem
    simp only [List.mem_append, List.mem_cons, List.not_mem_nil, or_false] at hmem
    rcases hmem with (hmem | hmem | hmem) | hmem
    · exact hfeed (hgap sign hmem)
    · exact hfeed hmem
    · exact notMem_exportOf hname (by rcases hsign with rfl | rfl <;> decide) hmem
    · exact hfeed hmem
  rwa [hsame] at hadds

theorem adds_exportApp (ht : EndSpares t (exportApp t)) (h : exportApp t = some u) :
    Adds [] t u := by
  rw [h] at ht
  obtain ⟨m, hm, -, hu⟩ := exists_of_exportApp h
  exact adds_appendStatement (isBare_entryName hm) ht hu.symm

theorem adds_exportStart (ht : EndSpares t (exportStart t)) (h : exportStart t = some u) :
    Adds [] t u := by
  rw [h] at ht
  obtain ⟨x, hx, -, hu⟩ := exists_of_exportStart h
  exact adds_appendStatement (isBare_startFunction (List.mem_of_head? hx)) ht hu.symm

/-! ## The last steps -/

/-- The steps behind those that make and complete the specification. -/
def lastSteps : List (String × Repairer) := steps.drop 12

def endpointOf? : String → Option Endpoint
  | "MISSING_HEALTH_ENDPOINT" => some .health
  | "MISSING_ROOT_ENDPOINT" => some .root
  | "MISSING_DOCS_ENDPOINT" => some .docs
  | "MISSING_SPEC_ENDPOINT" => some .spec
  | _ => none

/-- What the step of a code asks of the text that it gets: that it puts in what it does between
statements. -/
def StepSpares (t : Text) (code : String) : Prop :=
  match endpointOf? code, code with
  | some e, _ => EndpointSpares e t
  | none, "MISSING_EXPRESS_TYPES_IMPORT" => ImportSpares Rule.express [] handlerTypes t
  | none, "MISSING_APP_EXPORT" => EndSpares t (exportApp t)
  | none, "MISSING_START_EXPORT" => EndSpares t (exportStart t)
  | none, _ => True

theorem adds_step {s : String × Repairer} (hs : s ∈ lastSteps) (hspares : StepSpares t s.1)
    (h : s.2 policy t = some u) : Adds ((endpointOf? s.1).toList.map endpointCall) t u := by
  simp only [lastSteps, steps, List.drop_succ_cons, List.drop_zero, List.mem_cons, List.not_mem_nil,
    or_false] at hs
  rcases hs with rfl | rfl | rfl | rfl | rfl | rfl | rfl
  · exact adds_injectEndpoint hspares h
  · exact adds_injectEndpoint hspares h
  · exact adds_injectEndpoint hspares h
  · exact adds_injectEndpoint hspares h
  · have himport : addImport "express" [] ["Request", "Response"] t = some u := h
    have hstatement : ImportSpares "express".toList ([].map String.toList)
        (["Request", "Response"].map String.toList) t := hspares
    exact adds_addImport hstatement (by decide) (by decide) himport
  · exact adds_exportApp hspares h
  · exact adds_exportStart hspares h

/-- The `k`-th step gets what the first `k` have left of the text. -/
def StepsSpare (policy : Policy) (codes : List String) (l : List (String × Repairer)) (t : Text) :
    Prop :=
  ∀ k s, l[k]? = some s → s.1 ∈ codes → StepSpares (runSteps policy codes (l.take k) t).1 s.1

def endpointsOf (applied : List String) : List Endpoint := applied.filterMap endpointOf?

/-- A run adds the endpoints that it has put in. -/
theorem adds_runSteps {codes : List String} : ∀ {l : List (String × Repairer)} {t : Text},
    (∀ s ∈ l, s ∈ lastSteps) → StepsSpare policy codes l t →
      Adds ((endpointsOf (runSteps policy codes l t).2).map endpointCall) t
      (runSteps policy codes l t).1
  | [], t, _, _ => .refl t
  | s :: l, t, hl, hspares => by
      obtain ⟨hs, hl⟩ := List.forall_mem_cons.mp hl
      rcases step_cases policy codes t s with hskip | ⟨new, hc, hnew⟩
      · rw [runSteps_skip hskip]
        refine adds_runSteps hl fun k s' hk hc => ?_
        have hnext := hspares (k + 1) s' hk hc
        rwa [List.take_succ_cons, runSteps_skip hskip] at hnext
      · have hadds := adds_step hs (hspares 0 s rfl hc) (eq_some_of_runStep? hnew)
        rw [runSteps_move hc hnew]
        have hrest := adds_runSteps (t := new) hl fun k s' hk hc' => by
          have hnext := hspares (k + 1) s' hk hc'
          rwa [List.take_succ_cons, runSteps_move hc hnew] at hnext
        have hboth := hadds.trans hrest
        rw [← List.map_append] at hboth
        rw [endpointsOf, List.filterMap_cons]
        cases hendpoint : endpointOf? s.1 with
        | none => rw [hendpoint] at hboth; exact hboth
        | some e => rw [hendpoint] at hboth; exact hboth

/-! ## The repair -/

/-- A text whose routes get a specification before an endpoint is put in. -/
def early : Text := "const app = express();\napp.get('/items', h);\n".toList

/-- The codes of the specification and of one endpoint. -/
def earlyCodes : List String := ["MISSING_OPENAPI_SPEC", "MISSING_HEALTH_ENDPOINT"]

/-- Endpoints that are put in can be missing in the specification that was made for the routes. -/
theorem not_always_declared :
    ¬ ∀ (policy : Policy) (codes : List String) (t : Text), balanced t = true →
    Route.all (.of t) ≠ [] →
      ("MISSING_OPENAPI_SPEC" ∈ codes ∨ "SPEC_DRIFT" ∈ codes) → endpointsOf codes ≠ [] →
        (apply policy codes t).reverted = false →
          (∀ spec ∈ specOf? (apply policy codes t).text,
            (spec.paths? (apply policy codes t).text).isSome →
            undeclaredRoutes policy (apply policy codes t).text = []) := by
  intro h
  have hchars : early = _ := String.toList_ofList
  have hrun : (apply ⟨[], [], []⟩ earlyCodes early).reverted = false ∧
      (∃ spec ∈ specOf? (apply ⟨[], [], []⟩ earlyCodes early).text,
        (spec.paths? (apply ⟨[], [], []⟩ earlyCodes early).text).isSome) ∧
      undeclaredRoutes ⟨[], [], []⟩ (apply ⟨[], [], []⟩ earlyCodes early).text =
        ["get:/health".toList] := by
    rw [hchars]
    decide +kernel
  have hearly : balanced early = true ∧ Route.all (.of early) ≠ [] := by
    rw [hchars]
    decide +kernel
  obtain ⟨hkept, ⟨spec, hspec, hpaths⟩, hmissing⟩ := hrun
  have hnone := h ⟨[], [], []⟩ earlyCodes early hearly.1 hearly.2 (by decide)
    (by decide) hkept spec hspec hpaths
  rw [hmissing] at hnone
  cases hnone

/-- The text with its specification made and completed, before an endpoint is put in. -/
def specified (policy : Policy) (codes : List String) (t : Text) : Text :=
  (runSteps policy codes (steps.take 12) t).1

/-- The operation that the specification has to declare for an endpoint. -/
def endpointKey (e : Endpoint) : Text := RoutePath.key "get".toList e.path.toList

/-- An endpoint that is no part of the infrastructure. -/
def isOutside (policy : Policy) (e : Endpoint) : Bool :=
  !policy.isInfraPath (RoutePath.normalize e.path.toList)

/-- Behind the specification nothing becomes undeclared but endpoints that are put in, are no part
of the infrastructure and are not declared. -/
theorem undeclared_of_endpoints {codes : List String} (ht : balanced t = true)
    (hkept : (apply policy codes t).reverted = false)
    (hspares : StepsSpare policy codes lastSteps (specified policy codes t)) :
    declaredKeys? (apply policy codes t).text = declaredKeys? (specified policy codes t) ∧
      (∀ key ∈ undeclaredRoutes policy (apply policy codes t).text,
        key ∈ undeclaredRoutes policy (specified policy codes t) ∨
          ∃ e ∈ endpointsOf (apply policy codes t).applied, isOutside policy e = true ∧
            endpointKey e = key) ∧
      (undeclaredRoutes policy (specified policy codes t) = [] →
        (∀ e ∈ endpointsOf (apply policy codes t).applied, isOutside policy e = true →
          ∃ keys ∈ declaredKeys? (specified policy codes t), endpointKey e ∈ keys) →
          undeclaredRoutes policy (apply policy codes t).text = []) := by
  obtain ⟨htext, happlied⟩ : (apply policy codes t).text =
      (runSteps policy codes lastSteps (specified policy codes t)).1 ∧
      ∀ e ∈ endpointsOf (runSteps policy codes lastSteps (specified policy codes t)).2,
        e ∈ endpointsOf (apply policy codes t).applied := by
    have hsteps : steps = steps.take 12 ++ lastSteps := (List.take_append_drop 12 steps).symm
    have hrun := @runSteps_append policy codes lastSteps (steps.take 12) t
    rw [← hsteps] at hrun
    rcases apply_cases policy codes t with ⟨hopen, -⟩ | ⟨-, -, h⟩ | ⟨-, -, h⟩
    · rw [ht] at hopen
      cases hopen
    · rw [h, hrun]
      refine ⟨rfl, fun e he => ?_⟩
      rw [endpointsOf, List.filterMap_append]
      exact List.mem_append_right _ he
    · rw [h] at hkept
      cases hkept
  have hadds := adds_runSteps (fun _ hs => hs) hspares
  have hundeclared : ∀ key ∈ undeclaredRoutes policy (apply policy codes t).text,
      key ∈ undeclaredRoutes policy (specified policy codes t) ∨
        ∃ e ∈ endpointsOf (apply policy codes t).applied, isOutside policy e = true ∧
          endpointKey e = key ∧ ∀ keys ∈ declaredKeys? (specified policy codes t), key ∉ keys := by
    intro key hkey
    rw [htext] at hkey
    refine (hadds.undeclared hkey).imp_right fun ⟨c, hc, hinfra, hsame, hnot⟩ => ?_
    obtain ⟨e, he, rfl⟩ := List.mem_map.mp hc
    exact ⟨e, happlied e he, by rw [isOutside, Bool.not_eq_true']; exact hinfra, hsame, hnot⟩
  refine ⟨htext ▸ hadds.declared, fun key hkey => ?_, fun hdeclared hendpoints => ?_⟩
  · exact (hundeclared key hkey).imp_right fun ⟨e, he, houtside, hsame, _⟩ =>
      ⟨e, he, houtside, hsame⟩
  · refine List.eq_nil_iff_forall_not_mem.mpr fun key hkey => ?_
    rcases hundeclared key hkey with hbefore | ⟨e, he, houtside, rfl, hnot⟩
    · rw [hdeclared] at hbefore
      cases hbefore
    · obtain ⟨keys, hkeys, hmem⟩ := hendpoints e he houtside
      exact hnot keys hkeys hmem

def late : Text :=
  "const s = \x7b openapi: 3, paths: \x7b '/a': \x7b get: \x7b\x7d \x7d \x7d \x7d;\napp.get('/a', h);\n".toList

/-- The codes of a specification that declares too little, and of one endpoint. -/
def lateCodes : List String := ["SPEC_DRIFT", "MISSING_HEALTH_ENDPOINT"]

theorem specified_late : specified .default lateCodes late = late := by
  have hchars : late = _ := String.toList_ofList
  rw [hchars]
  decide

set_option maxRecDepth 2000 in
theorem stepsSpare_late : StepsSpare .default lateCodes lastSteps late := by
  have hchars : late = _ := String.toList_ofList
  refine forall_turns [("MISSING_HEALTH_ENDPOINT", 0)] (by decide) ?_
  have hspares : EndpointSpares .health late := by
    rw [hchars]
    decide
  exact List.forall_mem_singleton.mpr hspares

set_option maxRecDepth 2000 in
theorem undeclared_of_endpoints_late :
    balanced late = true ∧ (apply .default lateCodes late).reverted = false ∧
      (apply .default lateCodes late).applied = ["MISSING_HEALTH_ENDPOINT"] ∧
      StepsSpare .default lateCodes lastSteps (specified .default lateCodes late) ∧
      undeclaredRoutes .default (apply .default lateCodes late).text = [] := by
  have hchars : late = _ := String.toList_ofList
  have ht : balanced late = true := by
    rw [hchars]
    decide
  have hrun : (apply .default lateCodes late).reverted = false ∧
      (apply .default lateCodes late).applied = ["MISSING_HEALTH_ENDPOINT"] := by
    rw [hchars]
    decide
  have hspares : StepsSpare .default lateCodes lastSteps (specified .default lateCodes late) := by
    rw [specified_late]
    exact stepsSpare_late
  have hdeclared : undeclaredRoutes .default (specified .default lateCodes late) = [] := by
    rw [specified_late, hchars]
    decide
  refine ⟨ht, hrun.1, hrun.2, hspares, (undeclared_of_endpoints ht hrun.1 hspares).2.2 hdeclared ?_⟩
  rw [hrun.2]
  decide

end Repair

end ServiceGate
