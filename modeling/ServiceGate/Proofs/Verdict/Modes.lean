/-
# What the storage mode decides

Three rules on stored data apply under the relational mode only; no other rule looks at the mode, in
its gate (`gate_cases`) or in its analysis (`findings_withMode`).  So the relational mode adds
errors of these three rules and changes nothing else, and since none of the three has a repair, a
repair is the same under every mode (`modes_isolated`).

Both statements on modes hold of verdicts that fail, too: `Concur` relates two outcomes, and a fault
under one mode is the same fault under the other.
-/
import ServiceGate.Proofs.Repair.Again
import ServiceGate.Proofs.Verdict.ByRule

namespace ServiceGate

variable {policy : Policy} {mode : StorageMode} {t : Text} {v w : Verdict} {ctx : Context}
  {rule : Rule}

def relationalCodes : List String :=
  ["NULLABLE_TIMESTAMP_ACCESS", "MISSING_QUERY_AWAIT", "UNGUARDED_JSON_PARSE"]

def Issue.isRelational (i : Issue) : Bool := relationalCodes.contains i.code

def Context.withMode (ctx : Context) (mode : StorageMode) : Context :=
  { ctx with features := { ctx.features with storageMode := mode } }

/-- The first verdict has errors of the relational mode on top of the second. -/
structure Verdict.AddsRelational (v w : Verdict) : Prop where
  errors : v.errors.filter (!·.isRelational) = w.errors
  warnings : v.warnings = w.warnings
  fixableCodes : v.fixableCodes = w.fixableCodes

/-! ## Which rules look at the mode -/

theorem gate_cases : ∀ rule ∈ Rule.all,
    (relationalCodes.contains rule.code = true ∧ rule.gate = .storage .networkedRelational) ∨
    (relationalCodes.contains rule.code = false ∧ rule.gate ∈
      [.always, .hasRoutes, .usesSchemaLibrary, .usesIdGenerator, .definesServiceEntry]) := by
  decide

/-- No analysis depends on the mode. -/
theorem findings_withMode (ctx : Context) (mode : StorageMode) : ∀ rule ∈ Rule.all,
    rule.detector.findings (ctx.withMode mode) = rule.detector.findings ctx := by
  refine Rule.forall_mem_all ?_
  and_intros <;> rfl

theorem exists_relational_findings (ctx : Context) : ∀ rule ∈ Rule.all,
    relationalCodes.contains rule.code = true → ∃ found,
    rule.detector.findings ctx = .ok found := by
  refine Rule.forall_mem_all ?_
  and_intros <;> first | exact fun _ => ⟨_, rfl⟩ | exact fun h => absurd h (by decide)

theorem level_of_relational : ∀ rule ∈ Rule.all, relationalCodes.contains rule.code = true →
    rule.level = .error := by
  decide

theorem isFixable_of_relational : ∀ c ∈ relationalCodes, Rule.isFixable c = false := by
  decide

/-! ## The issues under two modes -/

theorem issues_withMode (ctx : Context) (mode : StorageMode) (hrule : rule ∈ Rule.all)
    (hcode : relationalCodes.contains rule.code = false) :
    rule.issues (ctx.withMode mode) = rule.issues ctx := by
  have hgate : rule.gate.admits (ctx.withMode mode).features = rule.gate.admits ctx.features := by
    rcases gate_cases rule hrule with ⟨h, -⟩ | ⟨-, hgate⟩
    · rw [hcode] at h
      cases h
    · simp only [List.mem_cons, List.not_mem_nil, or_false] at hgate
      rcases hgate with h | h | h | h | h <;> rw [h] <;> rfl
  rw [Rule.issues, Rule.issues, hgate, findings_withMode ctx mode rule hrule]
  rfl

theorem exists_relational_issues (ctx : Context) (hrule : rule ∈ Rule.all)
    (hcode : relationalCodes.contains rule.code = true) : ∃ issues,
    rule.issues ctx = .ok issues := by
  obtain ⟨found, hfound⟩ := exists_relational_findings ctx rule hrule hcode
  rw [Rule.issues, hfound]
  split_ifs
  · exact ⟨_, rfl⟩
  · exact ⟨_, rfl⟩

theorem relational_issues_eq_nil (hmode : ctx.features.storageMode ≠ .networkedRelational)
    (hrule : rule ∈ Rule.all) (hcode : relationalCodes.contains rule.code = true) :
    rule.issues ctx = .ok [] := by
  rcases gate_cases rule hrule with ⟨-, hgate⟩ | ⟨h, -⟩
  · rw [Rule.issues, hgate, if_neg]
    exact fun h => hmode (beq_iff_eq.mp h)
  · rw [hcode] at h
    cases h

theorem issuesOf_withMode (ctx : Context) (level : Level) {mode mode' : StorageMode}
    (hmode : mode ≠ .networkedRelational) (hmode' : mode' ≠ .networkedRelational) :
    issuesOf level (ctx.withMode mode) = issuesOf level (ctx.withMode mode') := by
  refine congrArg (Except.map List.flatten) (mapM_congr fun rule hrule => ?_)
  have hall := (List.mem_filter.mp hrule).1
  cases hcode : relationalCodes.contains rule.code with
  | false => rw [issues_withMode ctx mode hall hcode, issues_withMode ctx mode' hall hcode]
  | true =>
      rw [relational_issues_eq_nil hmode hall hcode, relational_issues_eq_nil hmode' hall hcode]

theorem warnings_withMode (ctx : Context) (mode mode' : StorageMode) :
    issuesOf .warning (ctx.withMode mode) = issuesOf .warning (ctx.withMode mode') := by
  refine congrArg (Except.map List.flatten) (mapM_congr fun rule hrule => ?_)
  obtain ⟨hall, hlevel⟩ := List.mem_filter.mp hrule
  cases hcode : relationalCodes.contains rule.code with
  | false => rw [issues_withMode ctx mode hall hcode, issues_withMode ctx mode' hall hcode]
  | true =>
      rw [level_of_relational rule hall hcode] at hlevel
      cases hlevel

theorem errors_relational (ctx : Context) (hmode : mode ≠ .networkedRelational) :
    (issuesOf .error (ctx.withMode .networkedRelational)).map (List.filter (!·.isRelational)) =
      (issuesOf .error (ctx.withMode mode)).map (List.filter fun _ => true) := by
  refine issuesOf_filter_congr fun rule hrule => ?_
  cases hcode : relationalCodes.contains rule.code with
  | false =>
      rw [issues_withMode ctx _ hrule hcode, issues_withMode ctx _ hrule hcode]
      cases hissues : rule.issues ctx with
      | error fault => rfl
      | ok issues =>
          have hkeep := filter_issues hissues fun c => !relationalCodes.contains c
          rw [hcode] at hkeep
          exact congrArg Except.ok (hkeep.trans (List.filter_true issues).symm)
  | true =>
      obtain ⟨issues, hissues⟩ :=
        exists_relational_issues (ctx.withMode .networkedRelational) hrule hcode
      have hkeep := filter_issues hissues fun c => !relationalCodes.contains c
      rw [hcode] at hkeep
      rw [hissues, relational_issues_eq_nil hmode hrule hcode]
      exact congrArg Except.ok hkeep

/-! ## The verdicts -/

theorem filter_isFixable_codes (issues : List Issue) :
    ((issues.filter (!·.isRelational)).map (·.code)).filter Rule.isFixable =
      (issues.map (·.code)).filter Rule.isFixable := by
  rw [List.filter_map, List.filter_map, List.filter_filter]
  refine congrArg (List.map _) (List.filter_congr fun i _ => ?_)
  cases hi : i.isRelational with
  | false => exact Bool.and_true _
  | true =>
      have hun := isFixable_of_relational i.code (List.contains_iff_mem.mp hi)
      exact (Bool.and_false _).trans hun.symm

theorem addsRelational_validate (policy : Policy) (t : Text) (hmode : mode ≠ .networkedRelational) :
    Concur Verdict.AddsRelational (validate policy .networkedRelational t)
    (validate policy mode t) := by
  have hconcur : Concur _ (validate policy .networkedRelational t) (validate policy mode t) :=
    concur_validate (errors_relational (.of policy .none t) hmode)
      (warnings_withMode (.of policy .none t) _ _)
  refine hconcur.imp fun v w hv hw ⟨herrors, hwarnings⟩ => ?_
  rw [List.filter_true] at herrors
  refine ⟨herrors, hwarnings, ?_⟩
  rw [fixableCodes_eq hv, fixableCodes_eq hw, Verdict.codes, Verdict.codes, ← herrors,
    filter_isFixable_codes]

theorem validate_mode (policy : Policy) (t : Text) {mode mode' : StorageMode}
    (hmode : mode ≠ .networkedRelational) (hmode' : mode' ≠ .networkedRelational) :
    validate policy mode t = validate policy mode' t := by
  have hissues : ∀ level, issuesOf level (.of policy mode t) =
      issuesOf level (.of policy mode' t) :=
    fun level => issuesOf_withMode (.of policy .none t) level hmode hmode'
  rw [validate, validate, hissues, hissues]

/-! ## The repairs -/

theorem repaired_mode (policy : Policy) (mode : StorageMode) (t : Text) :
    Repair.repaired policy mode t = Repair.repaired policy .none t := by
  have hother : StorageMode.none ≠ .networkedRelational := by decide
  by_cases hmode : mode = .networkedRelational
  · subst hmode
    refine (addsRelational_validate policy t hother).map_eq fun v w h =>
      Repair.apply_congr fun c hc => ?_
    have hcodes : v.codes.filter Rule.isFixable = w.codes.filter Rule.isFixable := by
      rw [Verdict.codes, Verdict.codes, ← h.errors, filter_isFixable_codes]
    have hmem : c ∈ v.codes.filter Rule.isFixable ↔ c ∈ w.codes.filter Rule.isFixable := by
      rw [hcodes]
    simpa only [List.mem_filter, hc, and_true] using hmem
  · rw [Repair.repaired, validate_mode policy t hmode hother]
    rfl

/-- Outside of the relational mode the verdict does not depend on the mode.  The relational mode
adds errors of its own rules and nothing else, and refuses an answer where the others do.  The
repairs of the files of a service are the same under all modes. -/
theorem modes_isolated (policy : Policy) :
    (∀ t mode mode', mode ≠ .networkedRelational → mode' ≠ .networkedRelational →
      validate policy mode t = validate policy mode' t) ∧
    (∀ t, Concur Verdict.AddsRelational (validate policy .networkedRelational t)
      (validate policy .none t)) ∧
    ∀ files mode mode', repairFiles policy mode files = repairFiles policy mode' files := by
  refine ⟨fun t mode mode' => validate_mode policy t, fun t =>
    addsRelational_validate policy t (by decide), fun files mode mode' => mapM_congr fun f _ => ?_⟩
  rw [Repair.repairFile_eq, Repair.repairFile_eq, repaired_mode policy mode,
    repaired_mode policy mode']

/-- A query that is not awaited, and stored columns that nothing tests. -/
def untested : Text :=
  "pool.query('DELETE FROM sessions');
const at = row.created_at.toISOString();
const tags = JSON.parse(row.tags);
".toList

theorem modes_isolated_untested :
    codesFound? .default .networkedRelational untested = some relationalCodes ∧
      codesFound? .default .none untested = some [] ∧
      validate .default .embeddedFile untested = validate .default .none untested := by
  have hchars : untested = _ := String.toList_ofList
  obtain ⟨hfound, hnone⟩ : codesFound? .default .networkedRelational untested =
      some relationalCodes ∧ codesFound? .default .none untested = some [] := by
    rw [hchars]
    decide +kernel
  exact ⟨hfound, hnone,
    (modes_isolated .default).1 untested .embeddedFile .none (by decide) (by decide)⟩

end ServiceGate
