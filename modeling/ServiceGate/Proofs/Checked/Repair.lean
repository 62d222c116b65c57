/-
# No cut is refused

Judging a text with every cut checked, those of the analyses and those that count lines and columns.
A check refuses what the rules themselves refuse (`validate_eq`), so a text whose `try` blocks close
is judged (`answers_validate`).

Repairing a text with every cut checked.  A repair never comes to a cut that is refused, whatever is
to be repaired, and neither does a verdict on a text whose `try` blocks close (`cuts_accepted`):
what is answered is what is answered without the checks.
-/
import ServiceGate.Proofs.Checked.Specification
import ServiceGate.Proofs.Checked.Handlers
import ServiceGate.Proofs.Checked.Imports
import ServiceGate.Proofs.Checked.Schemas
import ServiceGate.Proofs.Verdict.ByRule
import ServiceGate.Repair.Basic
import ServiceGate.Verdict

namespace ServiceGate

section

variable {t : Text}

namespace Checked

/-- The analyses that cut, by the code of their rule. -/
def analyses : List (String × (Context → Except SpanFault (List Finding))) := [
  ("MISSING_QUERY_AWAIT", unawaitedQueries),
  ("UNGUARDED_JSON_PARSE", untestedParses),
  ("UNUSED_OPTIONAL_IMPORT", unusedOptionalImports),
  ("UNUSED_SCHEMA", unusedSchemaDeclarations),
  ("MUTATION_WITHOUT_VALIDATION", unvalidatedMutations),
  ("UNGUARDED_VALIDATION", unguardedValidations),
  ("MISSING_OPENAPI_SPEC", missingSpec),
  ("SPEC_MISSING_REQUEST_BODY", onSpec missingRequestBodies),
  ("SPEC_MISSING_SCHEMAS", onSpec undeclaredSchemas),
  ("SPEC_MISSING_RESPONSES", onSpec missingResponses),
  ("SPEC_DRIFT", onSpec drift)]

def findings (ctx : Context) (rule : Rule) : Except SpanFault (List Finding) :=
  match analyses.lookup rule.code with
  | some run => run ctx
  | none => rule.detector.findings ctx

def issue (rule : Rule) (t : Text) (f : Finding) : Except SpanFault Issue := do
  let position ← f.offset.mapM (position t)
  return ⟨rule.code, f.message.getD rule.message, position, f.matched, rule.remedy⟩

def issues (ctx : Context) (rule : Rule) : Except SpanFault (List Issue) := do
  if rule.gate.admits ctx.features then
    ((← findings ctx rule).mergeSort Finding.notAfter).mapM (issue rule ctx.source.text)
  else return []

/-- The issues of all rules of a level, rule by rule. -/
def issuesOf (level : Level) (ctx : Context) : Except SpanFault (List Issue) := do
  return (← (Rule.all.filter (·.level = level)).mapM (issues ctx)).flatten

def validate (policy : Policy) (mode : StorageMode) (t : Text) : Except SpanFault Verdict := do
  let ctx := Context.of policy mode t
  let errors ← issuesOf .error ctx
  let warnings ← issuesOf .warning ctx
  return .ofIssues errors warnings

theorem findings_eq (ctx : Context) : ∀ rule ∈ Rule.all,
    findings ctx rule = rule.detector.findings ctx := by
  simp only [Rule.all, Rule.alwaysFailRules, Rule.conditionalImportRules,
    Rule.requiredEndpointRules, Rule.requiredExportRules, Rule.structuralRules,
    Rule.specCompletenessRules, Rule.advisoryRules, List.forall_mem_append, List.forall_mem_cons,
    Rule.blocking, Rule.advising, Rule.total, findings, analyses, List.lookup_cons, List.lookup_nil,
    String.reduceBEq, Detector.findings, unawaitedQueries_eq, untestedParses_eq,
    unusedOptionalImports_eq, unusedSchemaDeclarations_eq, unvalidatedMutations_eq,
    unguardedValidations_eq, missingSpec_eq, onSpec_eq missingRequestBodies_eq,
    onSpec_eq undeclaredSchemas_eq, onSpec_eq missingResponses_eq, onSpec_eq drift_eq,
    List.not_mem_nil, and_self, false_implies, implies_true]

theorem issue_eq (rule : Rule) (t : Text) (f : Finding) : issue rule t f = .ok
    (rule.issue t f) := by
  rw [issue, Rule.issue]
  cases f.offset with
  | none => rfl
  | some n =>
      rw [Option.mapM_some, position_eq]
      rfl

theorem issues_eq (ctx : Context) : ∀ rule ∈ Rule.all, issues ctx rule = rule.issues ctx := by
  intro rule hrule
  rw [issues, Rule.issues, findings_eq ctx rule hrule]
  split_ifs
  · cases rule.detector.findings ctx with
    | error fault => rfl
    | ok found => exact mapM_eq fun f _ => issue_eq rule ctx.source.text f
  · rfl

theorem issuesOf_eq (level : Level) (ctx : Context) :
    issuesOf level ctx = ServiceGate.issuesOf level ctx := by
  rw [issuesOf, ServiceGate.issuesOf,
    mapM_congr fun rule hrule => issues_eq ctx rule (List.mem_filter.mp hrule).1]
  rfl

/-- A verdict with checked cuts is the verdict. -/
theorem validate_eq (policy : Policy) (mode : StorageMode) (t : Text) :
    validate policy mode t = ServiceGate.validate policy mode t := by
  simp only [validate, ServiceGate.validate, issuesOf_eq]

end Checked

/-! ## Where a verdict is reached -/

section Answers
variable {ctx : Context}

theorem answers_forbidden (p : Pattern) : Answers ((Detector.forbidden p).findings ctx) := ⟨_, rfl⟩

theorem answers_required (p : Pattern) : Answers ((Detector.required p).findings ctx) := by
  rw [Detector.findings]
  split_ifs <;> exact ⟨_, rfl⟩

theorem answers_total (run : Context → List Finding) : Answers ((Rule.total run).findings ctx) :=
  ⟨_, rfl⟩

theorem answers_unvalidatedMutations
    (h : ∀ handling, Answers (Rule.routesHandling handling ctx.source)) :
    Answers ((Detector.analysis Rule.unvalidatedMutations).findings ctx) :=
  (h .unvalidated).bind fun _ => ⟨_, rfl⟩

theorem answers_unguardedValidations
    (h : ∀ handling, Answers (Rule.routesHandling handling ctx.source)) :
    Answers ((Detector.analysis Rule.unguardedValidations).findings ctx) :=
  (h .unguarded).bind fun _ => ⟨_, rfl⟩

theorem answers_findings (h : ∀ handling, Answers (Rule.routesHandling handling ctx.source)) :
    ∀ rule ∈ Rule.all, Answers (rule.detector.findings ctx) := by
  refine Rule.forall_mem_all ?_
  and_intros <;> first
    | exact answers_forbidden _
    | exact answers_required _
    | exact answers_total _
    | exact answers_unvalidatedMutations h
    | exact answers_unguardedValidations h

end Answers

theorem answers_issues {ctx : Context} {rule : Rule} (h : Answers (rule.detector.findings ctx)) :
    Answers (rule.issues ctx) := by
  obtain ⟨found, hfound⟩ := h
  rw [Rule.issues]
  split_ifs
  · rw [hfound]
    exact ⟨_, rfl⟩
  · exact ⟨_, rfl⟩

/-- A text whose `try` blocks close gets a verdict. -/
theorem answers_validate (h : TryBlocksClose t) (policy : Policy) (mode : StorageMode) :
    Answers (validate policy mode t) := by
  have hfindings : ∀ rule ∈ Rule.all, Answers (rule.detector.findings (.of policy mode t)) :=
    answers_findings (answers_routesHandling h)
  have hlevel : ∀ level, Answers (issuesOf level (.of policy mode t)) := by
    intro level
    obtain ⟨all, hall⟩ := answers_mapM (l := Rule.all.filter (·.level = level))
      (f := Rule.issues (.of policy mode t))
      fun rule hrule => answers_issues (hfindings rule (List.mem_filter.mp hrule).1)
    rw [issuesOf, hall]
    exact ⟨_, rfl⟩
  exact (hlevel .error).bind fun _ => (hlevel .warning).bind fun _ => ⟨_, rfl⟩

end

open Scan

variable {t : Text} {r : Route} {n : Nat}

theorem isBoundary_of_statementStop? (h : r.statementStop? t = some n) : t.IsBoundary n := by
  obtain ⟨close, hclose, hn⟩ := Option.map_eq_some_iff.mp h
  have hbehind := (bounds_of_matchingClose? hclose).2.2
  split at hn
  · next rest hafter =>
      obtain ⟨p, q, rfl, hp⟩ := Text.isBoundary_iff.mp hbehind
      rw [hp, Text.after_append] at hafter
      have hsize : close + 2 = Text.size (p ++ [';']) := by
        rw [Text.size_append, ← hp]
        rfl
      rw [← hn, hafter, hsize, ← List.singleton_append, ← List.append_assoc]
      exact Text.isBoundary_append _ rest
  · rw [← hn]
    exact hbehind

namespace Checked

/-! ## Endpoints -/

/-- The offset behind the registration and the semicolon that may follow it. -/
def routeStop (r : Route) (t : Text) : Except SpanFault (Option Nat) :=
  match matchingClose? t r.argsAt with
  | none => return none
  | some close => do
    match ← cutFrom t (close + 1) with
    | ';' :: _ => return some (close + 2)
    | _ => return some (close + 1)

def injectEndpoint (e : Endpoint) (t : Text) : Except SpanFault (Option Text) := do
  let s := Source.of t
  let routes := Route.all s
  if routes.any (Repair.answersFor e) then return none
  else
    match routes.getLast? with
    | none => return none
    | some last => andThen (routeStop last t) fun n => do
      let name := ((← findSpec s).map (·.name)).getD Repair.specName
      let out ← insertAt t n ("\n\n".toList ++ e.render last.receiver name)
      return some (← ensureNamedImport Rule.express [] ["Request".toList, "Response".toList] out)

theorem routeStop_eq (r : Route) (t : Text) : routeStop r t = .ok (r.statementStop? t) := by
  rw [routeStop, Route.statementStop?]
  cases hclose : matchingClose? t r.argsAt with
  | none => rfl
  | some close =>
      simp only [cutFrom_eq (bounds_of_matchingClose? hclose).2.2, ok_bind, Option.map_some]
      cases t.after (close + 1) with
      | nil => rfl
      | cons c rest =>
          by_cases hc : c = ';'
          · subst hc
            rfl
          · simp [hc, pure, Except.pure]

theorem injectEndpoint_eq (e : Endpoint) (t : Text) :
    injectEndpoint e t = .ok (Repair.injectEndpoint e t) := by
  simp only [injectEndpoint, Repair.injectEndpoint]
  split_ifs
  · rfl
  · cases (Route.all (.of t)).getLast? with
    | none => rfl
    | some last =>
        refine andThen_eq (routeStop_eq last t) fun n hn => ?_
        rw [findSpec_eq, ok_bind, insertAt_eq (isBoundary_of_statementStop? hn), ok_bind,
          ensureNamedImport_eq]
        rfl

/-! ## All repairs -/

/-- A repair with its cuts checked. -/
abbrev Repairer := Policy → Text → Except SpanFault (Option Text)

/-- The repairs by code, in the order in which they run. -/
def steps : List (String × Repairer) := [
  ("UNUSED_OPTIONAL_IMPORT", removeUnusedOptionalMembers),
  ("UNUSED_SCHEMA", fun _ => removeUnusedSchemas),
  ("FORBIDDEN_UUID_DEPENDENCY", fun _ => replaceIdentifierPackage),
  ("NAMESPACED_EXPRESS_TYPE", fun _ => unqualifyTypes),
  ("UNNARROWED_PARAM", fun _ => narrowParameters),
  ("MISSING_ZOD_IMPORT", fun _ => addImport "zod" [] ["z"]),
  ("MISSING_UUID_IMPORT", fun _ => addImport "crypto" ["node:crypto"] ["randomUUID"]),
  ("MISSING_OPENAPI_SPEC", synthesizeSpec),
  ("SPEC_DRIFT", injectDrift),
  ("SPEC_MISSING_REQUEST_BODY", injectRequestBodies),
  ("SPEC_MISSING_RESPONSES", injectResponses),
  ("SPEC_MISSING_SCHEMAS", injectSchemas),
  ("MISSING_HEALTH_ENDPOINT", fun _ => injectEndpoint .health),
  ("MISSING_ROOT_ENDPOINT", fun _ => injectEndpoint .root),
  ("MISSING_DOCS_ENDPOINT", fun _ => injectEndpoint .docs),
  ("MISSING_SPEC_ENDPOINT", fun _ => injectEndpoint .spec),
  ("MISSING_EXPRESS_TYPES_IMPORT", fun _ => addImport "express" [] ["Request", "Response"]),
  ("MISSING_APP_EXPORT", fun _ t => return Repair.exportApp t),
  ("MISSING_START_EXPORT", fun _ t => return Repair.exportStart t)]

def runStep (policy : Policy) (step : Repairer) (t : Text) : Except SpanFault (Option Text) :=
  andThen (step policy t) fun new => return if new = t then none else some new

/-- The text behind a step, if its code is reported and it has changed the text. -/
def runReported (policy : Policy) (codes : List String) (code : String) (step : Repairer)
    (t : Text) :
    Except SpanFault (Option Text) :=
  if codes.contains code then runStep policy step t else return none

/-- The text behind the steps of the reported codes, and the codes that have changed it. -/
def runSteps (policy : Policy) (codes : List String) :
    List (String × Repairer) → Text → Except SpanFault (Text × List String)
  | [], t => return (t, [])
  | (code, step) :: rest, t => do
    match ← runReported policy codes code step t with
    | none => runSteps policy codes rest t
    | some new =>
      let (out, applied) ← runSteps policy codes rest new
      return (out, code :: applied)

def apply (policy : Policy) (codes : List String) (t : Text) : Except SpanFault RepairReport :=
  if !balanced t then return ⟨t, [], false⟩
  else do
    let (out, applied) ← runSteps policy codes steps t
    return if balanced out then ⟨out, applied, false⟩ else ⟨t, [], true⟩

/-- A step and its counterpart with checked cuts. -/
def Matches (checked : String × Repairer) (step : String × Repair.Repairer) : Prop :=
  checked.1 = step.1 ∧ ∀ policy t, checked.2 policy t = .ok (step.2 policy t)

theorem steps_match : List.Forall₂ Matches steps Repair.steps := by
  rw [steps, Repair.steps]
  repeat' constructor
  all_goals intro policy t
  · exact removeUnusedOptionalMembers_eq policy t
  · exact removeUnusedSchemas_eq t
  · exact replaceIdentifierPackage_eq t
  · exact unqualifyTypes_eq t
  · exact narrowParameters_eq t
  · exact addImport_eq _ _ _ t
  · exact addImport_eq _ _ _ t
  · exact synthesizeSpec_eq policy t
  · exact injectDrift_eq policy t
  · exact injectRequestBodies_eq policy t
  · exact injectResponses_eq policy t
  · exact injectSchemas_eq policy t
  · exact injectEndpoint_eq _ t
  · exact injectEndpoint_eq _ t
  · exact injectEndpoint_eq _ t
  · exact injectEndpoint_eq _ t
  · exact addImport_eq _ _ _ t
  · rfl
  · rfl

theorem runStep_eq {checked : Repairer} {step : Repair.Repairer} {policy : Policy}
    (h : ∀ t, checked policy t = .ok (step policy t)) (t : Text) :
    runStep policy checked t = .ok (Repair.runStep? policy step t) := by
  refine andThen_eq (h t) fun new _ => ?_
  split_ifs <;> rfl

theorem runSteps_eq (policy : Policy) (codes : List String) {checked : List (String × Repairer)}
    {steps : List (String × Repair.Repairer)} (h : List.Forall₂ Matches checked steps) (t : Text) :
    runSteps policy codes checked t = .ok (Repair.runSteps policy codes steps t) := by
  induction h generalizing t with
  | nil => rfl
  | @cons c s checked steps hstep _ ih =>
      obtain ⟨code, check⟩ := c
      obtain ⟨_, step⟩ := s
      obtain ⟨rfl, heq⟩ := hstep
      have hrun : runReported policy codes code check t =
          .ok (if codes.contains code then Repair.runStep? policy step t else none) := by
        rw [runReported]
        split_ifs
        · exact runStep_eq (heq policy) t
        · rfl
      rw [runSteps, hrun, ok_bind, Repair.runSteps]
      cases (if codes.contains code then Repair.runStep? policy step t else none) with
      | none => exact ih t
      | some new =>
          simp only [ih new, ok_bind]
          rfl

theorem apply_eq (policy : Policy) (codes : List String) (t : Text) :
    apply policy codes t = .ok (Repair.apply policy codes t) := by
  rw [apply, Repair.apply, runSteps_eq policy codes steps_match]
  split_ifs
  · rfl
  · simp only [ok_bind]
    split_ifs <;> rfl

end Checked

/-- A text whose `try` blocks close gets a verdict and every text is repaired with all cuts
accepted, and what comes out is what comes out without the checks. -/
theorem cuts_accepted :
    (∀ policy mode t, TryBlocksClose t →
      ∃ v, Checked.validate policy mode t = .ok v ∧ validate policy mode t = .ok v) ∧
    (∀ policy codes t, Checked.apply policy codes t = .ok (Repair.apply policy codes t)) := by
  refine ⟨fun policy mode t h => ?_, Checked.apply_eq⟩
  obtain ⟨v, hv⟩ := answers_validate h policy mode
  exact ⟨v, by rw [Checked.validate_eq, hv], hv⟩

/-- A handler with letters of two bytes and a `try` block that closes in it. -/
theorem cuts_accepted_handler :
    TryBlocksClose
    "app.post('/é', (req) => \x7b try \x7b A.parse(req.body) \x7d catch (e) \x7b é() \x7d \x7d);".toList ∧
    ∃ v, Checked.validate .default .none
        "app.post('/é', (req) => \x7b try \x7b A.parse(req.body) \x7d catch (e) \x7b é() \x7d \x7d);".toList = .ok v ∧
      validate .default .none
        "app.post('/é', (req) => \x7b try \x7b A.parse(req.body) \x7d catch (e) \x7b é() \x7d \x7d);".toList = .ok v :=
  ⟨by decide, cuts_accepted.1 .default .none _ (by decide)⟩

/-- A parenthesis too many ends the arguments in front of the `try` block. -/
example :
    ¬ TryBlocksClose
    "app.post('/a', (req) => \x7b try \x7b A.parse(req.body)) \x7d \x7d);".toList := by
  decide

end ServiceGate
