/-
# Exclusions only exclude

A policy whose exclusion lists are longer exempts more paths, so fewer routes and operations are
asked for a specification.  Four rules consult the lists, each at a place of its own; their findings
under the longer lists are among those under the shorter ones, but for the one finding on undeclared
routes, which then names fewer of them.  All other rules come to the same (`findings_withPolicy`).

    valid under the shorter lists → valid under the longer ones   -- `exclusions_only_exclude`
-/
import ServiceGate.Proofs.Verdict.ByRule

namespace ServiceGate

variable {p q : Policy} {mode : StorageMode} {t path segment name : Text} {v w : Verdict}
  {ctx : Context} {rule : Rule} {s : Scan.Source} {spec : Spec}

/-- The code of undeclared routes, which are named in one issue. -/
def driftCode : String := "SPEC_DRIFT"

/-- The codes of the rules that consult the exclusion lists. -/
def exclusionCodes : List String :=
  [driftCode, "MISSING_LIST_ENDPOINT", "SPEC_MISSING_REQUEST_BODY", "SPEC_MISSING_SCHEMAS"]

/-- Whether an issue is one of a rule that consults the exclusion lists. -/
def Issue.isExcludable (i : Issue) : Bool := exclusionCodes.contains i.code

/-- The first policy excludes nothing that the second does not. -/
structure Policy.Within (p q : Policy) : Prop where
  infraPaths : p.infraPaths ⊆ q.infraPaths
  actionSegments : p.actionSegments ⊆ q.actionSegments
  optionalImportMembers : p.optionalImportMembers = q.optionalImportMembers

def Context.withPolicy (ctx : Context) (policy : Policy) : Context := { ctx with policy := policy }

/-- The keys of the routes that a text does not declare in its specification. -/
def undeclaredRoutes (policy : Policy) (t : Text) : List Text :=
  ((Spec.find? (.of t)).map fun spec => spec.driftKeys (.of t) policy).getD []

/-- What the issue on undeclared routes names, if there is any. -/
def Verdict.namedRoutes (v : Verdict) : List Text :=
  (v.errors.filter (·.code == driftCode)).map (·.matched)

/-- How one issue names several things, and no issue nothing. -/
def inOneIssue (names : List Text) : List Text :=
  if names = [] then [] else [Text.join ", ".toList names]

/-! ## Longer lists exempt more -/

namespace Policy.Within

variable (h : Policy.Within p q)
include h

theorem isInfraPath (hp : p.isInfraPath path = true) : q.isInfraPath path = true := by
  rw [Policy.isInfraPath, Bool.or_eq_true] at hp ⊢
  rcases hp with hdocs | hlist
  · exact .inl hdocs
  · exact .inr (List.contains_iff_mem.mpr (h.infraPaths (List.contains_iff_mem.mp hlist)))

theorem isActionSegment (hp : p.isActionSegment segment = true) :
    q.isActionSegment segment = true := by
  obtain ⟨action, hmem, hsame⟩ := List.any_eq_true.mp hp
  exact List.any_eq_true.mpr ⟨action, h.actionSegments hmem, hsame⟩

theorem isActionPath (hp : p.isActionPath path = true) : q.isActionPath path = true := by
  rw [Policy.isActionPath] at hp ⊢
  cases hlast : RoutePath.lastStatic? path with
  | none => rw [hlast] at hp; cases hp
  | some segment =>
      rw [hlast] at hp
      exact h.isActionSegment hp

theorem isCollection (hq : Rule.isCollection q path = true) : Rule.isCollection p path = true := by
  simp only [Rule.isCollection, Bool.and_eq_true, Bool.not_eq_true'] at hq ⊢
  obtain ⟨⟨hstatic, hinfra⟩, haction⟩ := hq
  refine ⟨⟨hstatic, ?_⟩, ?_⟩
  · exact Bool.eq_false_iff.mpr fun hp => Bool.eq_false_iff.mp hinfra (h.isInfraPath hp)
  · exact Bool.eq_false_iff.mpr fun hp => Bool.eq_false_iff.mp haction (h.isActionPath hp)

theorem expectedSchema? {method : Text} (hq : Spec.expectedSchema? q method path = some name) :
    Spec.expectedSchema? p method path = some name := by
  rw [Spec.expectedSchema?] at hq ⊢
  by_cases hexempt : (q.isInfraPath path || q.isActionPath path) = true
  · rw [if_pos hexempt] at hq
    cases hq
  · rw [if_neg hexempt] at hq
    rw [if_neg, hq]
    intro hp
    refine hexempt (Bool.or_eq_true_iff.mpr ?_)
    exact (Bool.or_eq_true_iff.mp hp).imp h.isInfraPath h.isActionPath

/-! ## The four analyses -/

theorem unlistedCreations {routes : List Route} :
    Rule.unlistedCreations q routes ⊆ Rule.unlistedCreations p routes := by
  intro r hr
  obtain ⟨hmem, hr⟩ := List.mem_filter.mp hr
  refine List.mem_filter.mpr ⟨hmem, ?_⟩
  simp only [Bool.and_eq_true] at hr ⊢
  exact ⟨⟨hr.1.1, h.isCollection hr.1.2⟩, hr.2⟩

theorem withoutRequestBody :
    spec.withoutRequestBody t q ⊆ spec.withoutRequestBody t p := by
  intro o ho
  obtain ⟨hmem, ho⟩ := List.mem_filter.mp ho
  refine List.mem_filter.mpr ⟨hmem, ?_⟩
  simp only [Spec.lacksRequestBody, Bool.and_eq_true] at ho ⊢
  obtain ⟨⟨hmutation, hschema⟩, hobject⟩ := ho
  obtain ⟨name, hname⟩ := Option.isSome_iff_exists.mp hschema
  exact ⟨⟨hmutation, Option.isSome_iff_exists.mpr ⟨name, h.expectedSchema? hname⟩⟩, hobject⟩

theorem missingSchemas : spec.missingSchemas s q ⊆ spec.missingSchemas s p := by
  intro name hname
  obtain ⟨hexpected, hundeclared⟩ := List.mem_filter.mp hname
  refine List.mem_filter.mpr ⟨mem_sortedSet.mpr ?_, hundeclared⟩
  refine (List.mem_append.mp (mem_sortedSet.mp hexpected)).elim (fun hroute => ?_) fun hop => ?_
  · obtain ⟨r, hr, hq⟩ := List.mem_filterMap.mp hroute
    exact List.mem_append_left _ (List.mem_filterMap.mpr ⟨r, hr, h.expectedSchema? hq⟩)
  · obtain ⟨o, ho, hq⟩ := List.mem_filterMap.mp hop
    exact List.mem_append_right _ (List.mem_filterMap.mpr ⟨o, ho, h.expectedSchema? hq⟩)

theorem driftKeys : spec.driftKeys s q ⊆ spec.driftKeys s p := by
  intro key hkey
  obtain ⟨hkey, hundeclared⟩ := List.mem_filter.mp (mem_sortedSet.mp hkey)
  obtain ⟨r, hr, rfl⟩ := List.mem_map.mp hkey
  obtain ⟨hr, hinfra⟩ := List.mem_filter.mp hr
  refine mem_sortedSet.mpr (List.mem_filter.mpr ⟨List.mem_map_of_mem ?_, hundeclared⟩)
  refine List.mem_filter.mpr ⟨hr, ?_⟩
  rw [Bool.not_eq_true'] at hinfra ⊢
  exact Bool.eq_false_iff.mpr fun hp => Bool.eq_false_iff.mp hinfra (h.isInfraPath hp)

end Policy.Within

/-! ## The rules under two policies -/

/-- A rule that consults no exclusion list finds the same under both policies. -/
theorem findings_withPolicy (ctx : Context) (h : p.Within q) : ∀ rule ∈ Rule.all,
    exclusionCodes.contains rule.code = false →
      rule.detector.findings (ctx.withPolicy p) = rule.detector.findings (ctx.withPolicy q) := by
  have hoptional : (Rule.total Rule.unusedOptionalImports).findings (ctx.withPolicy p) =
      (Rule.total Rule.unusedOptionalImports).findings (ctx.withPolicy q) := by
    simp only [Rule.total, Detector.findings, Rule.unusedOptionalImports, Context.withPolicy,
      h.optionalImportMembers]
  refine Rule.forall_mem_all ?_
  and_intros <;> first | exact fun _ => rfl | exact fun h => absurd h (by decide) |
    exact fun _ => hoptional

/-- The rules that consult the exclusion lists always have an answer. -/
theorem detector_cases : ∀ rule ∈ Rule.all, exclusionCodes.contains rule.code = true →
    ∃ run, rule.detector = Rule.total run ∧
      (rule.code = driftCode ∨ run = Rule.missingListEndpoints ∨
        run = Rule.onSpec Rule.missingRequestBodies ∨ run = Rule.onSpec Rule.missingSchemas) := by
  refine Rule.forall_mem_all ?_
  and_intros <;> first | exact fun h => absurd h (by decide) | exact fun _ => ⟨_, rfl, .inl rfl⟩ |
    exact fun _ => ⟨_, rfl, .inr (.inl rfl)⟩ | exact fun _ => ⟨_, rfl, .inr (.inr (.inl rfl))⟩ |
    exact fun _ => ⟨_, rfl, .inr (.inr (.inr rfl))⟩

theorem exists_driftRule : ∃ rule ∈ Rule.all, rule.code = driftCode ∧ rule.level = .error ∧
    rule.gate = .hasRoutes ∧ rule.detector = Rule.total (Rule.onSpec Rule.drift) :=
  ⟨Rule.specCompletenessRules.getLast (by decide),
    List.mem_append_left _ (List.mem_append_right _ (List.getLast_mem _)), rfl, rfl, rfl, rfl⟩

theorem level_of_excludable : ∀ rule ∈ Rule.all, exclusionCodes.contains rule.code = true →
    rule.level = .error := by
  decide

theorem onSpec_none {run : Spec → Context → List Finding} (ctx : Context)
    (h : Spec.find? ctx.source = none) : Rule.onSpec run ctx = [] := by
  rw [Rule.onSpec, h]

theorem onSpec_some {run : Spec → Context → List Finding} (ctx : Context) {spec : Spec}
    (h : Spec.find? ctx.source = some spec) : Rule.onSpec run ctx = run spec ctx := by
  rw [Rule.onSpec, h]

theorem onSpec_subset (ctx : Context) {run : Spec → Context → List Finding}
    (h : ∀ spec, run spec (ctx.withPolicy q) ⊆ run spec (ctx.withPolicy p)) :
    Rule.onSpec run (ctx.withPolicy q) ⊆ Rule.onSpec run (ctx.withPolicy p) := by
  cases hspec : Spec.find? ctx.source with
  | none =>
      rw [onSpec_none (ctx.withPolicy q) hspec]
      exact List.nil_subset _
  | some spec =>
      rw [onSpec_some (ctx.withPolicy q) hspec, onSpec_some (ctx.withPolicy p) hspec]
      exact h spec

/-- Under the longer lists a rule finds nothing that it does not find under the shorter ones. -/
theorem findings_subset (ctx : Context) (h : p.Within q) (hrule : rule ∈ Rule.all)
    (hcode : rule.code ≠ driftCode) {found : List Finding}
    (hq : rule.detector.findings (ctx.withPolicy q) = .ok found) :
    ∃ found', rule.detector.findings (ctx.withPolicy p) = .ok found' ∧ found ⊆ found' := by
  cases hexcludable : exclusionCodes.contains rule.code with
  | false =>
      exact ⟨found, by rw [findings_withPolicy ctx h rule hrule hexcludable, hq], fun _ hf => hf⟩
  | true =>
      obtain ⟨run, hrun, hcases⟩ := detector_cases rule hrule hexcludable
      rw [hrun] at hq ⊢
      obtain rfl := Except.ok.inj hq
      refine ⟨run (ctx.withPolicy p), rfl, ?_⟩
      rcases hcases with hdrift | rfl | rfl | rfl
      · exact absurd hdrift hcode
      · exact List.map_subset _ h.unlistedCreations
      · exact onSpec_subset ctx fun spec => List.map_subset _ h.withoutRequestBody
      · exact onSpec_subset ctx fun spec => List.map_subset _ h.missingSchemas

/-! ## The issues under two policies -/

theorem issues_withPolicy (ctx : Context) (h : p.Within q) (hrule : rule ∈ Rule.all)
    (hcode : exclusionCodes.contains rule.code = false) :
    rule.issues (ctx.withPolicy p) = rule.issues (ctx.withPolicy q) := by
  rw [Rule.issues, Rule.issues, findings_withPolicy ctx h rule hrule hcode]
  rfl

theorem exists_excludable_issues (ctx : Context) (hrule : rule ∈ Rule.all)
    (hcode : exclusionCodes.contains rule.code = true) : ∃ issues,
    rule.issues ctx = .ok issues := by
  obtain ⟨run, hrun, -⟩ := detector_cases rule hrule hcode
  rw [Rule.issues, hrun]
  split_ifs
  · exact ⟨_, rfl⟩
  · exact ⟨_, rfl⟩

theorem errors_withPolicy (ctx : Context) (h : p.Within q) :
    (issuesOf .error (ctx.withPolicy p)).map (List.filter (!·.isExcludable)) =
      (issuesOf .error (ctx.withPolicy q)).map (List.filter (!·.isExcludable)) := by
  refine issuesOf_filter_congr fun rule hrule => ?_
  cases hcode : exclusionCodes.contains rule.code with
  | false => rw [issues_withPolicy ctx h hrule hcode]
  | true =>
      have hnone : ∀ {ctx issues}, rule.issues ctx = .ok issues →
          issues.filter (!·.isExcludable) = [] := fun hissues => by
        have hkeep := filter_issues hissues fun c => !exclusionCodes.contains c
        rwa [hcode] at hkeep
      obtain ⟨issues, hissues⟩ := exists_excludable_issues (ctx.withPolicy p) hrule hcode
      obtain ⟨issues', hissues'⟩ := exists_excludable_issues (ctx.withPolicy q) hrule hcode
      rw [hissues, hissues']
      exact congrArg Except.ok ((hnone hissues).trans (hnone hissues').symm)

theorem warnings_withPolicy (ctx : Context) (h : p.Within q) :
    issuesOf .warning (ctx.withPolicy p) = issuesOf .warning (ctx.withPolicy q) := by
  refine congrArg (Except.map List.flatten) (mapM_congr fun rule hrule => ?_)
  obtain ⟨hall, hlevel⟩ := List.mem_filter.mp hrule
  cases hcode : exclusionCodes.contains rule.code with
  | false => exact issues_withPolicy ctx h hall hcode
  | true =>
      rw [level_of_excludable rule hall hcode] at hlevel
      cases hlevel

/-- An error under the longer lists is one under the shorter ones. -/
theorem mem_errors_of_within (ctx : Context) (h : p.Within q) {errors errors' : List Issue}
    (hp : issuesOf .error (ctx.withPolicy p) = .ok errors)
    (hq : issuesOf .error (ctx.withPolicy q) = .ok errors') {i : Issue} (hi : i ∈ errors')
    (hcode : i.code ≠ driftCode) : i ∈ errors := by
  obtain ⟨rule, hrule, hlevel, hsame⟩ := exists_rule hq hi
  have hown := issues_eq_filter_code hrule (hlevel.symm ▸ hp)
  have hown' := issues_eq_filter_code hrule (hlevel.symm ▸ hq)
  have hi' : i ∈ errors'.filter (·.code == rule.code) :=
    List.mem_filter.mpr ⟨hi, beq_iff_eq.mpr hsame.symm⟩
  obtain ⟨hgate, found, hfound, f, hf, hissue⟩ := (mem_issues_iff hown').mp hi'
  obtain ⟨found', hfound', hsub⟩ := findings_subset ctx h hrule (hsame ▸ hcode) hfound
  have hmem := (mem_issues_iff hown).mpr ⟨hgate, found', hfound', f, hsub hf, hissue⟩
  exact (List.mem_filter.mp hmem).1

/-! ## Undeclared routes -/

theorem undeclaredRoutes_of_no_routes (h : Route.all (.of t) = []) : undeclaredRoutes p t = [] := by
  rw [undeclaredRoutes]
  cases Spec.find? (.of t) with
  | none => rfl
  | some spec =>
      show spec.driftKeys (.of t) p = []
      rw [Spec.driftKeys, h]
      rfl

theorem map_matched_drift (spec : Spec) (ctx : Context) :
    (Rule.drift spec ctx).map (·.matched) = inOneIssue (spec.driftKeys ctx.source ctx.policy) := by
  rw [Rule.drift]
  cases spec.driftKeys ctx.source ctx.policy <;> rfl

theorem matched_drift (p : Policy) (mode : StorageMode) (t : Text) :
    (Rule.onSpec Rule.drift (.of p mode t)).map (·.matched) =
      inOneIssue (undeclaredRoutes p t) := by
  rw [undeclaredRoutes]
  cases hspec : Spec.find? (.of t) with
  | none => rw [onSpec_none (.of p mode t) hspec]; rfl
  | some spec =>
      rw [onSpec_some (.of p mode t) hspec, map_matched_drift]
      rfl

theorem drift_cases (ctx : Context) :
    Rule.onSpec Rule.drift ctx = [] ∨ ∃ f, Rule.onSpec Rule.drift ctx = [f] := by
  cases hspec : Spec.find? ctx.source with
  | none => exact .inl (onSpec_none ctx hspec)
  | some spec =>
      rw [onSpec_some ctx hspec, Rule.drift]
      cases spec.driftKeys ctx.source ctx.policy with
      | nil => exact .inl rfl
      | cons key keys => exact .inr ⟨_, rfl⟩

theorem namedRoutes_eq (hv : validate p mode t = .ok v) :
    v.namedRoutes = inOneIssue (undeclaredRoutes p t) := by
  obtain ⟨errors, warnings, herrors, -, rfl⟩ := validate_eq_ok_iff.mp hv
  obtain ⟨rule, hrule, hcode, hlevel, hgate, hdetector⟩ := exists_driftRule
  have hown := issues_eq_filter_code hrule (hlevel.symm ▸ herrors)
  rw [hcode, Rule.issues, hgate, hdetector] at hown
  show (errors.filter (·.code == driftCode)).map (·.matched) = _
  split_ifs at hown with hroutes
  · rw [← Except.ok.inj hown, ← matched_drift p mode t]
    rcases drift_cases (.of p mode t) with h | ⟨f, h⟩
    · simp only [h, List.mergeSort_nil, List.map_nil]
    · simp only [h, List.mergeSort_singleton, List.map_cons, List.map_nil]
      rfl
  · have hnone : Route.all (.of t) = [] := by
      simpa [Gate.admits, Context.of, Features.detect] using hroutes
    rw [← Except.ok.inj hown, undeclaredRoutes_of_no_routes hnone]
    rfl

theorem undeclaredRoutes_subset (h : p.Within q) (t : Text) :
    undeclaredRoutes q t ⊆ undeclaredRoutes p t := by
  rw [undeclaredRoutes, undeclaredRoutes]
  cases Spec.find? (.of t) with
  | none => exact List.Subset.refl _
  | some spec => exact h.driftKeys

/-! ## The verdicts -/

/-- How the verdict on a text under longer exclusion lists, the second, follows from that under
shorter ones. -/
structure Verdict.Excludes (p q : Policy) (t : Text) (v w : Verdict) : Prop where
  /-- The rules that consult no exclusion list report the same. -/
  same : v.errors.filter (!·.isExcludable) = w.errors.filter (!·.isExcludable)
  warnings : v.warnings = w.warnings
  /-- Nothing is reported that was not, undeclared routes apart. -/
  errors : ∀ i ∈ w.errors, i.code ≠ driftCode → i ∈ v.errors
  /-- The undeclared routes are named in one issue before and after. -/
  namedBefore : v.namedRoutes = inOneIssue (undeclaredRoutes p t)
  namedAfter : w.namedRoutes = inOneIssue (undeclaredRoutes q t)
  undeclared : undeclaredRoutes q t ⊆ undeclaredRoutes p t

/-- A text that is valid under shorter lists has no undeclared route there, hence none under longer
ones, and no other error could have come in. -/
theorem Verdict.Excludes.isValid (h : Verdict.Excludes p q t v w) (hv : v.isValid = true) :
    w.isValid = true := by
  have hnone : v.errors = [] := List.isEmpty_iff.mp hv
  have hbefore : undeclaredRoutes p t = [] := by
    by_contra hsome
    have hnamed := h.namedBefore
    rw [inOneIssue, if_neg hsome, Verdict.namedRoutes, hnone] at hnamed
    cases hnamed
  have hundeclared : undeclaredRoutes q t = [] := by
    have hsub := h.undeclared
    rw [hbefore] at hsub
    exact List.subset_nil.mp hsub
  have hafter : w.namedRoutes = [] := by
    rw [h.namedAfter, hundeclared]
    rfl
  refine List.isEmpty_iff.mpr (List.eq_nil_iff_forall_not_mem.mpr fun i hi => ?_)
  by_cases hcode : i.code = driftCode
  · have hnamed : i.matched ∈ w.namedRoutes :=
      List.mem_map_of_mem (List.mem_filter.mpr ⟨hi, beq_iff_eq.mpr hcode⟩)
    rw [hafter] at hnamed
    cases hnamed
  · have hmem := h.errors i hi hcode
    rw [hnone] at hmem
    cases hmem

theorem excludes_validate (h : p.Within q) (mode : StorageMode) (t : Text) :
    Concur (Verdict.Excludes p q t) (validate p mode t) (validate q mode t) := by
  have hconcur : Concur _ (validate p mode t) (validate q mode t) :=
    concur_validate (errors_withPolicy (.of p mode t) h) (warnings_withPolicy (.of p mode t) h)
  refine hconcur.imp fun v w hv hw ⟨hsame, hwarnings⟩ => ?_
  have herrors : ∀ i ∈ w.errors, i.code ≠ driftCode → i ∈ v.errors := by
    obtain ⟨errors, -, hp, -, rfl⟩ := validate_eq_ok_iff.mp hv
    obtain ⟨errors', -, hq, -, rfl⟩ := validate_eq_ok_iff.mp hw
    exact fun i hi => mem_errors_of_within (.of p mode t) h hp hq hi
  exact ⟨hsame, hwarnings, herrors, namedRoutes_eq hv, namedRoutes_eq hw,
    undeclaredRoutes_subset h t⟩

/-- Longer exclusion lists take errors away and add none, so what was valid stays valid.  An answer
is refused under both policies or under neither. -/
theorem exclusions_only_exclude (h : p.Within q) (mode : StorageMode) (t : Text) :
    Concur (fun v w => Verdict.Excludes p q t v w ∧ (v.isValid = true → w.isValid = true))
      (validate p mode t) (validate q mode t) :=
  (excludes_validate h mode t).imp fun _ _ _ _ hexcludes => ⟨hexcludes, hexcludes.isValid⟩

/-- A collection that can be added to, next to a specification that declares nothing. -/
def unlisted : Text := "app.post('/items', f);\nconst d = \x7b openapi: '3' \x7d;\n".toList

/-- No exclusions at all, and one of that collection. -/
def noExclusions : Policy := ⟨[], [], []⟩

def itemsExcluded : Policy := ⟨["/items".toList], [], []⟩

def bareCodes : List String :=
  ["MISSING_EXPRESS_TYPES_IMPORT", "MISSING_HEALTH_ENDPOINT", "MISSING_ROOT_ENDPOINT",
    "MISSING_DOCS_ENDPOINT", "MISSING_SPEC_ENDPOINT"]

theorem exclusions_only_exclude_items :
    noExclusions.Within itemsExcluded ∧ ∃ v w,
      validate noExclusions .none unlisted = .ok v ∧ validate itemsExcluded .none unlisted = .ok w ∧
        Verdict.Excludes noExclusions itemsExcluded unlisted v w ∧
        v.codes = bareCodes ++ ["MISSING_LIST_ENDPOINT", "SPEC_MISSING_SCHEMAS", "SPEC_DRIFT"] ∧
        w.codes = bareCodes := by
  have hwithin : noExclusions.Within itemsExcluded := ⟨List.nil_subset _, List.nil_subset _, rfl⟩
  have hbefore : codesFound? noExclusions .none unlisted =
      some (bareCodes ++ ["MISSING_LIST_ENDPOINT", "SPEC_MISSING_SCHEMAS", "SPEC_DRIFT"]) := by
    decide +kernel
  have hafter : codesFound? itemsExcluded .none unlisted = some bareCodes := by
    decide +kernel
  obtain ⟨v, hv, hvc⟩ := exists_verdict hbefore
  obtain ⟨w, hw, hwc⟩ := exists_verdict hafter
  have hconcur := exclusions_only_exclude hwithin .none unlisted
  rw [hv, hw] at hconcur
  exact ⟨hwithin, v, w, hv, hw, hconcur.1, hvc, hwc⟩

end ServiceGate
