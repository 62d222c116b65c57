/-
# What a run of the repairs clears

Each repair is written apart from the rule whose code it answers.  Where the text that its step gets
is `Assured`, the rule finds nothing in what the step leaves (`silent_of_step`); this is put
together from what is proved of the repairs one by one:

    UNUSED_SCHEMA                 the cascade is no longer      -- `unused_removeSchemaPasses_iff`
                                  than the passes
    UNNARROWED_PARAM              every text                    -- `exists_wrappedText`
    MISSING_ZOD_IMPORT,           the statement is written as   -- `RequiredImport.exists_readsAt`
      MISSING_UUID_IMPORT         the rule asks for
    MISSING_EXPRESS_TYPES_IMPORT  the statement is read back    -- `isImported_apply`
    SPEC_MISSING_REQUEST_BODY,    no template region divides    -- `finishes_responses`
      SPEC_MISSING_RESPONSES      a literal that is read
    MISSING_…_ENDPOINT            the last route opens in code  -- `answered_injectEndpoint`
    MISSING_APP_EXPORT,           no dollar sign stands at      -- `exportApp_settles`
      MISSING_START_EXPORT        either end of the name

The steps run on each other's output, so a later one may bring back what an earlier one has cleared.
A run loses nothing but at one of its turns (`exists_turn_of_lost`); so a code whose step changed a
text that was assured is gone from the verdict on the result, or a later turn of the run has got a
text that the rule was content with and left one that it reports (`cleared_or_brought_back`).
-/
import ServiceGate.Proofs.Repair.Cascade
import ServiceGate.Proofs.Repair.Completed
import ServiceGate.Proofs.Repair.Exported
import ServiceGate.Proofs.Repair.Narrowed
import ServiceGate.Proofs.Rule.RequiredEndpoints
import ServiceGate.Proofs.Rule.RequiredImports

namespace ServiceGate.Repair

open Scan

variable {policy : Policy} {mode : StorageMode} {codes : List String} {t u : Text} {code : String}
  {v : Verdict} {s : String × Repairer} {rule : Rule}

/-! ## What the rules are content with -/

/-- The rule of a code finds nothing in a text. -/
def Silent (policy : Policy) (mode : StorageMode) (code : String) (t : Text) : Prop :=
  ∀ rule ∈ Rule.all, rule.code = code → rule.detector.findings (.of policy mode t) = .ok []

theorem Silent.of_total {run : Context → List Finding}
    (hrule : (Rule.find? code).map (·.detector) = some (Rule.total run))
    (h : run (.of policy mode t) = []) : Silent policy mode code t := by
  intro rule hmem hcode
  rw [detector_of_find? hrule hmem hcode, Rule.total, Detector.findings, h]

/-- An import that the rule accepts is written. -/
structure ImportAssured (r : RequiredImport) (t : Text) : Prop where
  importable : r.Importable t
  stands : ∀ e ∈ r.edit? t, e.Stands t
  bare : ∀ i ∈ ImportStatement.all (.of (r.repaired t)),
    ¬ Hidden r.pattern (.of (r.repaired t)) i.start

/-- The specification stands where it is looked for, and no template region divides a literal of it.
-/
def SpecAssured (t : Text) : Prop :=
  ∃ spec, Spec.Located t spec ∧ spec.literal.Nested t ∧ spec.Undivided t ∧
    ∀ op ∈ spec.operations t, ∀ object ∈ op.object, object.Undivided t

/-- The last route opens in code, and the import that goes with the endpoint fits its place. -/
def EndpointAssured (e : Endpoint) (t : Text) : Prop :=
  ∀ last ∈ (Route.all (.of t)).getLast?, OpensAt t .paren last.argsAt ∧ e.ImportFits t last

/-- What makes sure that the rule of a code is content with what its step leaves of a text. -/
def Assured (t : Text) : String → Prop
  | "UNUSED_SCHEMA" => cascade t ≤ (unused t).length
  | "UNNARROWED_PARAM" => True
  | "MISSING_ZOD_IMPORT" => ImportAssured .schemaLibrary t
  | "MISSING_UUID_IMPORT" => ImportAssured .idGenerator t
  | "SPEC_MISSING_REQUEST_BODY" => SpecAssured t
  | "SPEC_MISSING_RESPONSES" => SpecAssured t
  | "MISSING_HEALTH_ENDPOINT" => EndpointAssured .health t
  | "MISSING_ROOT_ENDPOINT" => EndpointAssured .root t
  | "MISSING_DOCS_ENDPOINT" => EndpointAssured .docs t
  | "MISSING_SPEC_ENDPOINT" => EndpointAssured .spec t
  | "MISSING_EXPRESS_TYPES_IMPORT" => ∀ e ∈ importEdit? Rule.express [] handlerTypes t, e.Stands t
  | "MISSING_APP_EXPORT" => EndsBalanced t ∧
      ∀ m ∈ Features.entryDeclaration.first? (blank t), Undollared (m.groupText 1)
  | "MISSING_START_EXPORT" => EndsBalanced t ∧
      ∀ x ∈ (Rule.startFunctions (blank t)).head?, Undollared x.1
  | _ => False

/-! ## One step -/

theorem silent_removeUnusedSchemas (ht : cascade t ≤ (unused t).length)
    (h : removeUnusedSchemas t = some u) :
    Silent policy mode "UNUSED_SCHEMA" u := by
  refine .of_total rfl ?_
  have hnone : unused u = [] := by
    rw [eq_of_removeUnusedSchemas h]
    exact unused_removeSchemaPasses_iff.mpr ht
  exact List.map_eq_nil_iff.mpr hnone

theorem silent_narrowParameters (h : narrowParameters t = some u) :
    Silent policy mode "UNNARROWED_PARAM" u := by
  obtain ⟨-, -, -, -, -, hnone⟩ := exists_wrappedText h
  exact fun rule hrule hcode => findings_eq_nil_of_narrowed hrule hcode rfl hnone

theorem silent_addImport {r : RequiredImport} (hr : r ∈ RequiredImport.all) (ht : ImportAssured r t)
    (h : addImport r.moduleName r.others [r.name] t = some u) : Silent policy mode r.code u := by
  have hu : u = r.repaired t := by
    rw [addImport] at h
    split_ifs at h
    exact (Option.some.inj h).symm
  obtain ⟨i, hi, hreads⟩ := RequiredImport.exists_readsAt hr ht.importable ht.stands
  subst hu
  exact fun rule hrule hcode =>
    RequiredImport.findings_eq_nil hr hrule hcode hi hreads (ht.bare i hi)

theorem silent_addHandlerTypes (ht : ∀ e ∈ importEdit? Rule.express [] handlerTypes t, e.Stands t)
    (h : addImport "express" [] ["Request", "Response"] t = some u) :
    Silent policy mode "MISSING_EXPRESS_TYPES_IMPORT" u := by
  have hu : ensureNamedImport Rule.express [] handlerTypes t = u := by
    rw [addImport] at h
    split_ifs at h
    exact Option.some.inj h
  have hne : u ≠ t := by
    rintro rfl
    rw [addImport] at h
    split_ifs at h with hsame
    exact hsame hu
  rw [ensureNamedImport_eq] at hu
  cases he : importEdit? Rule.express [] handlerTypes t with
  | none =>
      rw [he] at hu
      exact absurd hu.symm hne
  | some e =>
      rw [he] at hu
      obtain rfl : e.apply t = u := hu
      have himported : ∀ name ∈ handlerTypes, IsImported (e.apply t) [Rule.express] name :=
        fun name hname => by
        have htype : ∀ name ∈ handlerTypes, name ≠ "type".toList := by decide
        exact isImported_apply (by decide) (by decide) he (ht e he) hname (htype name hname)
      have hnone : Rule.missingHandlerTypes (ImportStatement.all (.of (e.apply t))) = [] :=
        List.filter_eq_nil_iff.mpr fun name hname => by
          obtain ⟨i, hi, hfrom, hmember⟩ := himported name hname
          simp only [Bool.not_eq_true', Bool.not_eq_false, List.any_eq_true, Bool.and_eq_true]
          exact ⟨i, hi, hfrom, hmember⟩
      refine .of_total rfl ?_
      show Rule.handlerTypeImports (.of policy mode (e.apply t)) = []
      rw [Rule.handlerTypeImports]
      split
      · rfl
      · next hnames => exact absurd hnone hnames

theorem silent_injectRequestBodies (ht : SpecAssured t)
    (h : injectRequestBodies policy t = some u) :
    Silent policy mode "SPEC_MISSING_REQUEST_BODY" u := by
  obtain ⟨spec, hspec, hnested, hcut, hops⟩ := ht
  have hfinishes := @finishes_requestBodies t policy spec hspec
    (completable_of_undivided hspec hnested hcut hops)
  obtain ⟨spec', hfound, -, -, -, hnone⟩ := hfinishes.2 u h
  refine .of_total rfl ?_
  show Rule.onSpec Rule.missingRequestBodies (.of policy mode u) = []
  rw [Rule.onSpec]
  simp only [Context.of, hfound]
  exact List.map_eq_nil_iff.mpr hnone

theorem silent_injectResponses (ht : SpecAssured t) (h : injectResponses policy t = some u) :
    Silent policy mode "SPEC_MISSING_RESPONSES" u := by
  obtain ⟨spec, hspec, hnested, hcut, hops⟩ := ht
  have hfinishes := @finishes_responses t policy spec hspec
    (completable_of_undivided hspec hnested hcut hops)
  obtain ⟨spec', hfound, -, -, -, hnone⟩ := hfinishes.2 u h
  refine .of_total rfl ?_
  show Rule.onSpec Rule.missingResponses (.of policy mode u) = []
  rw [Rule.onSpec]
  simp only [Context.of, hfound]
  exact List.map_eq_nil_iff.mpr hnone

theorem silent_injectEndpoint {e : Endpoint} (ht : EndpointAssured e t)
    (h : injectEndpoint e t = some u) (he : endpointOf? code = some e) :
    Silent policy mode code u := by
  obtain ⟨-, last, -, hlast, -⟩ := exists_of_injectEndpoint h
  obtain ⟨hopen, hfits⟩ := ht last hlast
  intro rule hrule hcode
  exact Endpoint.findings_eq_nil hrule (hcode ▸ he)
    (Endpoint.answered_injectEndpoint hlast hopen hfits h) rfl

theorem silent_exportApp (ht : EndsBalanced t)
    (hname : ∀ m ∈ Features.entryDeclaration.first? (blank t), Undollared (m.groupText 1))
    (h : exportApp t = some u) : Silent policy mode "MISSING_APP_EXPORT" u := by
  obtain ⟨m, hm, -, hnone⟩ := exportApp_settles ht h
  have hexported := hnone.mpr (hname m hm)
  refine .of_total rfl ?_
  rw [exportApp] at hexported
  rw [Rule.missingAppExport]
  split
  · rfl
  · next app hentry =>
      obtain ⟨m', hfound, rfl⟩ := Option.map_eq_some_iff.mp hentry
      rw [show Features.entryDeclaration.first? (blank u) = some m' from hfound] at hexported
      dsimp only at hexported
      split_ifs at hexported with happ
      exact if_pos happ

theorem silent_exportStart (ht : EndsBalanced t)
    (hname : ∀ x ∈ (Rule.startFunctions (blank t)).head?, Undollared x.1)
    (h : exportStart t = some u) : Silent policy mode "MISSING_START_EXPORT" u := by
  obtain ⟨x, hx, -, hnone⟩ := exportStart_settles ht h
  have hexported := Option.map_eq_none_iff.mp (hnone (hname x hx))
  refine .of_total rfl ?_
  show Rule.missingStartExport (.of policy mode u) = []
  rw [Rule.missingStartExport]
  simp only [Context.of]
  rw [show (Source.of u).blanked = blank u from rfl, hexported]

/-- The rule of a code is content with what its step leaves of a text that is assured. -/
theorem silent_of_step (hs : s ∈ steps) (ht : Assured t s.1) (h : s.2 policy t = some u) :
    Silent policy mode s.1 u := by
  simp only [steps, List.mem_cons, List.not_mem_nil, or_false] at hs
  rcases hs with rfl | rfl | rfl | rfl | rfl | rfl | rfl | rfl | rfl | rfl | rfl | rfl | rfl | rfl |
    rfl | rfl | rfl | rfl | rfl
  · exact False.elim ht
  · exact silent_removeUnusedSchemas ht h
  · exact False.elim ht
  · exact False.elim ht
  · exact silent_narrowParameters h
  · exact silent_addImport List.mem_cons_self ht h
  · exact silent_addImport (List.mem_cons_of_mem _ List.mem_cons_self) ht h
  · exact False.elim ht
  · exact False.elim ht
  · exact silent_injectRequestBodies ht h
  · exact silent_injectResponses ht h
  · exact False.elim ht
  · exact silent_injectEndpoint (e := .health) ht h (by decide)
  · exact silent_injectEndpoint (e := .root) ht h (by decide)
  · exact silent_injectEndpoint (e := .docs) ht h (by decide)
  · exact silent_injectEndpoint (e := .spec) ht h (by decide)
  · exact silent_addHandlerTypes ht h
  · exact silent_exportApp ht.1 ht.2 h
  · exact silent_exportStart ht.1 ht.2 h

/-! ## The run -/

/-- A later turn of a run gets a text that the rule of a code is content with and leaves one that it
reports. -/
def BroughtBack (policy : Policy) (mode : StorageMode) (codes : List String) (code : String)
    (behind : List (String × Repairer)) (t : Text) : Prop :=
  ∃ front s rest u w, behind = front ++ s :: rest ∧ Turn policy codes front t s u w ∧
    Silent policy mode code u ∧ ¬ Silent policy mode code w

theorem silent_or_broughtBack {l : List (String × Repairer)} (h : Silent policy mode code t) :
    Silent policy mode code (runSteps policy codes l t).1 ∨
    BroughtBack policy mode codes code l t := by
  by_cases hlast : Silent policy mode code (runSteps policy codes l t).1
  · exact .inl hlast
  · obtain ⟨front, s, behind, u, w, hl, hturn, hu, hw⟩ := exists_turn_of_lost h hlast
    exact .inr ⟨front, s, behind, u, w, hl, hturn, hu, hw⟩

/-- Of a repair that is not given up: every code that it has applied had its turn.  If the text was
assured, the code is gone from the verdict on the result, or a later turn has brought it back. -/
theorem cleared_or_brought_back (ht : balanced t = true)
    (hkept : (apply policy codes t).reverted = false)
    (hv : validate policy mode (apply policy codes t).text = .ok v) :
    ∀ code ∈ (apply policy codes t).applied, ∃ front s behind u w, steps = front ++ s :: behind ∧
    s.1 = code ∧
      Turn policy codes front t s u w ∧
        (Assured u code → code ∉ v.codes ∨ BroughtBack policy mode codes code behind w) := by
  intro code hcode
  rcases apply_cases policy codes t with ⟨h, -⟩ | ⟨-, -, h⟩ | ⟨-, -, h⟩
  · rw [ht] at h
    cases h
  · rw [h] at hcode hv
    obtain ⟨front, s, behind, u, w, hsteps, rfl, hturn⟩ := exists_turn_of_mem_applied hcode
    refine ⟨front, s, behind, u, w, hsteps, rfl, hturn, fun hassured => ?_⟩
    have hs : s ∈ steps := hsteps ▸ List.mem_append_right front List.mem_cons_self
    have hsilent : Silent policy mode s.1 w := silent_of_step hs hassured hturn.step
    refine (silent_or_broughtBack hsilent).imp_left fun hlast => notMem_codes hv ?_
    rw [hsteps, hturn.run_behind]
    exact hlast
  · rw [h] at hkept
    cases hkept

end ServiceGate.Repair
