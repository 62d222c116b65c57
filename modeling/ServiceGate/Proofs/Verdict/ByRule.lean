/-
# A verdict rule by rule

A verdict is determined by the issues of its rules: `validate_eq_ok_iff` takes it apart into the
errors and the warnings.  The repairable codes of a verdict are those of its errors that have a
repair (`mem_fixableCodes`).

The issues of a level are those of its rules, one rule after the other.  What is kept of the issues
of each rule is kept of all of them, so two contexts in which every rule comes to the same come to
the same altogether (`issuesOf_filter_congr`).  No two rules have a code in common; the issues with
the code of a rule are therefore the issues of that rule (`issues_eq_filter_code`).
-/
import ServiceGate.Proofs.Outcomes
import ServiceGate.Verdict
import Mathlib.Data.List.Basic
import Mathlib.Data.List.Nodup

namespace ServiceGate

variable {policy : Policy} {mode : StorageMode} {t : Text} {v : Verdict} {ctx ctx' : Context}
  {level : Level} {rule : Rule} {issues : List Issue} {i : Issue}

/-! ## What a verdict is made of -/

def Verdict.codes (v : Verdict) : List String := v.errors.map (·.code)

/-- The codes that are found in a text; `none` where there is no verdict. -/
def codesFound? (policy : Policy) (mode : StorageMode) (t : Text) : Option (List String) :=
  (validate policy mode t).toOption.map Verdict.codes

theorem exists_verdict {codes : List String} (h : codesFound? policy mode t = some codes) :
    ∃ v, validate policy mode t = .ok v ∧ v.codes = codes := by
  rw [codesFound?] at h
  cases hv : validate policy mode t with
  | error fault => rw [hv] at h; cases h
  | ok v => rw [hv] at h; exact ⟨v, rfl, Option.some.inj h⟩

theorem validate_eq_ok_iff :
    validate policy mode t = .ok v ↔
      ∃ errors warnings, issuesOf .error (.of policy mode t) = .ok errors ∧
        issuesOf .warning (.of policy mode t) = .ok warnings ∧ v = .ofIssues errors warnings := by
  rw [validate]
  cases issuesOf .error (.of policy mode t) with
  | error fault =>
      constructor
      · intro h
        cases h
      · rintro ⟨_, _, h, _⟩
        cases h
  | ok errors =>
      cases issuesOf .warning (.of policy mode t) with
      | error fault =>
          constructor
          · intro h
            cases h
          · rintro ⟨_, _, _, h, _⟩
            cases h
      | ok warnings =>
          constructor
          · intro h
            exact ⟨errors, warnings, rfl, rfl, (Except.ok.inj h).symm⟩
          · rintro ⟨_, _, he, hw, rfl⟩
            cases he
            cases hw
            rfl

theorem fixableCodes_eq (hv : validate policy mode t = .ok v) :
    v.fixableCodes = sortedSet (v.codes.filter Rule.isFixable) := by
  obtain ⟨errors, warnings, -, -, rfl⟩ := validate_eq_ok_iff.mp hv
  rfl

theorem mem_fixableCodes (hv : validate policy mode t = .ok v) {c : String} :
    c ∈ v.fixableCodes ↔ c ∈ v.codes ∧ Rule.isFixable c = true := by
  rw [fixableCodes_eq hv, mem_sortedSet, List.mem_filter]

/-! ## One rule -/

theorem mem_issues_iff (h : rule.issues ctx = .ok issues) :
    i ∈ issues ↔ rule.gate.admits ctx.features = true ∧ ∃ found,
      rule.detector.findings ctx = .ok found ∧ ∃ f ∈ found, rule.issue ctx.source.text f = i := by
  rw [Rule.issues] at h
  split_ifs at h with hgate
  · cases hfound : rule.detector.findings ctx with
    | error fault => rw [hfound] at h; cases h
    | ok found =>
        rw [hfound] at h
        obtain rfl := Except.ok.inj h
        simp only [List.mem_map, List.mem_mergeSort, hgate, Except.ok.injEq, exists_eq_left',
          true_and]
  · obtain rfl := Except.ok.inj h
    simp only [List.not_mem_nil, hgate, Bool.false_eq_true, false_and]

theorem code_of_mem_issues (h : rule.issues ctx = .ok issues) (hi : i ∈ issues) :
    i.code = rule.code := by
  obtain ⟨-, -, -, f, -, rfl⟩ := (mem_issues_iff h).mp hi
  rfl

theorem filter_issues (h : rule.issues ctx = .ok issues) (keep : String → Bool) :
    issues.filter (fun i => keep i.code) = if keep rule.code then issues else [] := by
  have hcode : ∀ i ∈ issues, keep i.code = keep rule.code := fun i hi => by
    rw [code_of_mem_issues h hi]
  rw [List.filter_congr hcode]
  cases keep rule.code with
  | true => exact List.filter_true issues
  | false => exact List.filter_false issues

/-! ## All rules of a level -/

/-- What is kept of the issues of each rule is kept of all issues. -/
theorem map_filter_issuesOf (keep : Issue → Bool) :
    (issuesOf level ctx).map (List.filter keep) =
      ((Rule.all.filter (·.level = level)).mapM fun rule : Rule =>
        (rule.issues ctx).map (List.filter keep)).map List.flatten := by
  rw [← map_mapM, issuesOf]
  cases (Rule.all.filter (·.level = level)).mapM (Rule.issues ctx) with
  | error fault => rfl
  | ok lists => exact congrArg Except.ok (List.filter_flatten ..)

theorem issuesOf_filter_congr {keep keep' : Issue → Bool}
    (h : ∀ rule ∈ Rule.all, (rule.issues ctx).map (List.filter keep) =
      (rule.issues ctx').map (List.filter keep')) :
    (issuesOf level ctx).map (List.filter keep) = (issuesOf level ctx').map
    (List.filter keep') := by
  rw [map_filter_issuesOf, map_filter_issuesOf, mapM_congr fun rule hrule =>
    h rule (List.mem_filter.mp hrule).1]

/-- What is so of all rules, rule by rule. -/
theorem Rule.forall_mem_all {P : Rule → Prop} (h : Rule.all.Forall P) : ∀ rule ∈ Rule.all, P rule :=
  List.forall_iff_forall_mem.mp h

/-! ## The rule of an issue -/

theorem nodup_codes : (Rule.all.map (·.code)).Nodup := by
  decide

theorem detector_of_find? {code : String} {detector : Detector}
    (h : (Rule.find? code).map (·.detector) = some detector) (hrule : rule ∈ Rule.all)
    (hcode : rule.code = code) : rule.detector = detector := by
  obtain ⟨found, hfound, rfl⟩ := Option.map_eq_some_iff.mp h
  have hsame : found.code = code :=
    beq_iff_eq.mp (List.find?_some (p := fun r : Rule => r.code == code) hfound)
  rw [List.inj_on_of_nodup_map nodup_codes hrule (List.mem_of_find?_eq_some hfound)
    (hcode.trans hsame.symm)]

/-- Of the issues of some rules, those with the code of one of them are its own. -/
theorem flatten_filter_code {rules : List Rule} {lists : List (List Issue)}
    (h : List.Forall₂ (fun rule issues => rule.issues ctx = .ok issues) rules lists)
    (hnodup : (rules.map (·.code)).Nodup) (hrule : rule ∈ rules) :
    rule.issues ctx = .ok (lists.flatten.filter fun i => i.code == rule.code) := by
  induction h with
  | nil => exact absurd hrule List.not_mem_nil
  | @cons first issues rules lists hfirst hrest ih =>
      obtain ⟨hnew, hnodup⟩ := List.nodup_cons.mp hnodup
      rw [List.flatten_cons, List.filter_append, filter_issues hfirst (· == rule.code)]
      rcases List.mem_cons.mp hrule with rfl | hrule
      · have hothers : lists.flatten.filter (fun i => i.code == rule.code) = [] := by
          refine List.filter_eq_nil_iff.mpr fun i hi hcode => hnew ?_
          obtain ⟨issues, hissues, hi⟩ := List.mem_flatten.mp hi
          obtain ⟨other, hother, hissues⟩ := exists_of_mem_results hrest hissues
          exact List.mem_map.mpr ⟨other, hother,
            (code_of_mem_issues hissues hi).symm.trans (beq_iff_eq.mp hcode)⟩
        rw [hothers, hfirst, if_pos (beq_self_eq_true _), List.append_nil]
      · have hother : ¬ (first.code == rule.code) = true := fun hsame =>
          hnew (List.mem_map.mpr ⟨rule, hrule, (beq_iff_eq.mp hsame).symm⟩)
        rw [if_neg hother, List.nil_append]
        exact ih hnodup hrule

/-- The issues with the code of a rule are the issues of the rule. -/
theorem issues_eq_filter_code (hrule : rule ∈ Rule.all) (h : issuesOf rule.level ctx = .ok issues) :
    rule.issues ctx = .ok (issues.filter fun i => i.code == rule.code) := by
  rw [issuesOf] at h
  cases hall : (Rule.all.filter (·.level = rule.level)).mapM (Rule.issues ctx) with
  | error fault => rw [hall] at h; cases h
  | ok lists =>
      rw [hall] at h
      obtain rfl := Except.ok.inj h
      refine flatten_filter_code (mapM_ok_iff.mp hall) ?_ ?_
      · exact nodup_codes.sublist (List.filter_sublist.map _)
      · exact List.mem_filter.mpr ⟨hrule, decide_eq_true rfl⟩

theorem exists_rule (h : issuesOf level ctx = .ok issues) (hi : i ∈ issues) :
    ∃ rule ∈ Rule.all, rule.level = level ∧ rule.code = i.code := by
  rw [issuesOf] at h
  cases hall : (Rule.all.filter (·.level = level)).mapM (Rule.issues ctx) with
  | error fault => rw [hall] at h; cases h
  | ok lists =>
      rw [hall] at h
      obtain rfl := Except.ok.inj h
      obtain ⟨own, hown, hi⟩ := List.mem_flatten.mp hi
      obtain ⟨rule, hrule, hown⟩ := exists_of_mem_results (mapM_ok_iff.mp hall) hown
      obtain ⟨hrule, hlevel⟩ := List.mem_filter.mp hrule
      exact ⟨rule, hrule, of_decide_eq_true hlevel, (code_of_mem_issues hown hi).symm⟩

theorem notMem_codes (hv : validate policy mode t = .ok v) {code : String}
    (h : ∀ rule ∈ Rule.all, rule.code = code → rule.detector.findings (.of policy mode t) =
      .ok []) :
    code ∉ v.codes := by
  intro hmem
  obtain ⟨i, hi, hcode⟩ := List.mem_map.mp hmem
  obtain ⟨errors, warnings, herrors, -, rfl⟩ := validate_eq_ok_iff.mp hv
  obtain ⟨rule, hrule, hlevel, hsame⟩ := exists_rule herrors hi
  have hown := issues_eq_filter_code hrule (hlevel ▸ herrors)
  have hmem : i ∈ errors.filter fun i => i.code == rule.code :=
    List.mem_filter.mpr ⟨hi, beq_iff_eq.mpr hsame.symm⟩
  obtain ⟨-, found, hfound, f, hf, -⟩ := (mem_issues_iff hown).mp hmem
  rw [h rule hrule (hsame.trans hcode)] at hfound
  cases hfound
  cases hf

/-! ## Two verdicts -/

/-- Verdicts agree in what is kept of their errors if the issues of the two levels do. -/
theorem concur_validate {policy' : Policy} {mode' : StorageMode} {t' : Text}
    {keep keep' : Issue → Bool}
    (herrors : (issuesOf .error (.of policy mode t)).map (List.filter keep) =
      (issuesOf .error (.of policy' mode' t')).map (List.filter keep'))
    (hwarnings : issuesOf .warning (.of policy mode t) = issuesOf .warning (.of policy' mode' t')) :
    Concur (fun v w => v.errors.filter keep = w.errors.filter keep' ∧ v.warnings = w.warnings)
      (validate policy mode t) (validate policy' mode' t') := by
  rw [validate, validate, hwarnings]
  cases hv : issuesOf .error (.of policy mode t) with
  | error fault =>
      cases hw : issuesOf .error (.of policy' mode' t') with
      | error fault' =>
          rw [hv, hw] at herrors
          exact Except.error.inj herrors
      | ok errors' => rw [hv, hw] at herrors; cases herrors
  | ok errors =>
      cases hw : issuesOf .error (.of policy' mode' t') with
      | error fault' => rw [hv, hw] at herrors; cases herrors
      | ok errors' =>
          rw [hv, hw] at herrors
          cases issuesOf .warning (.of policy' mode' t') with
          | error fault => exact rfl
          | ok warnings => exact ⟨Except.ok.inj herrors, rfl⟩

end ServiceGate
