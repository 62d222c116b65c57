/-
# Judging a text again behind its repair

`Clears before after` is what one would ask of a repair: of the codes that have one none is left,
the identifier package apart, which stays where more of it is used than the generator; and nothing
is reported that was not reported before.

Neither that nor a second run that finds nothing to do is certain.  Unused schemas are removed in as
many passes as there are unused ones at first, so a schema that only the last removed one used is
left for the next run (`not_always_clears`, `repair_not_stable`).  What is certain of the second
run:

    Clears v w → it replaces the package at most                            -- `repaired_again`
    nothing is applied again ↔ no step still reported moves the text        -- `repaired_again`

the last of them for a balanced text whose second repair is not given up.
-/
import ServiceGate.Proofs.Repair.Run
import ServiceGate.Proofs.Verdict.ByRule

namespace ServiceGate.Repair

variable {policy : Policy} {mode : StorageMode} {t : Text} {v w : Verdict}

def packageCode : String := "FORBIDDEN_UUID_DEPENDENCY"

/-- What the verdict behind a repair should be, given the one before. -/
structure Clears (before after : Verdict) : Prop where
  repaired : ∀ c ∈ before.codes, Rule.isFixable c = true → c ≠ packageCode → c ∉ after.codes
  nothingNew : ∀ c ∈ after.codes, c ∈ before.codes

theorem Clears.left_over (h : Clears v w) {c : String} (hc : c ∈ w.codes)
    (hfix : Rule.isFixable c = true) : c = packageCode := by
  by_cases hp : c = packageCode
  · exact hp
  · exact absurd hc (h.repaired c (h.nothingNew c hc) hfix hp)

/-! ## Schemas that only unused schemas use -/

/-- A schema that is not used, on one that nothing else uses. -/
def chained : Text :=
  "import \x7b z \x7d from 'zod';\nconst A = z.string();\nconst B = z.array(A);\n".toList

def unchained : Text := "import \x7b z \x7d from 'zod';\nconst A = z.string();\n".toList

theorem codesFound?_chained : codesFound? .default .none chained = some ["UNUSED_SCHEMA"] := by
  have hchars : chained = _ := String.toList_ofList
  rw [hchars]
  decide +kernel

theorem codesFound?_unchained : codesFound? .default .none unchained = some ["UNUSED_SCHEMA"] := by
  have hchars : unchained = _ := String.toList_ofList
  rw [hchars]
  decide +kernel

theorem apply_chained :
    apply .default ["UNUSED_SCHEMA"] chained = ⟨unchained, ["UNUSED_SCHEMA"], false⟩ := by
  have hchars : chained = _ := String.toList_ofList
  rw [hchars]
  decide

theorem apply_unchained :
    apply .default ["UNUSED_SCHEMA"] unchained =
      ⟨"import \x7b z \x7d from 'zod';\n".toList, ["UNUSED_SCHEMA"], false⟩ := by
  have hchars : unchained = _ := String.toList_ofList
  rw [hchars]
  decide

/-! ## The first run -/

/-- A schema that only the last removed one used is left for the next run. -/
theorem not_always_clears :
    ¬ ∀ (policy : Policy) (mode : StorageMode) (t : Text) (v w : Verdict),
      Scan.balanced t = true → validate policy mode t = .ok v →
        (apply policy v.codes t).reverted = false →
          validate policy mode (apply policy v.codes t).text = .ok w → Clears v w := by
  intro h
  obtain ⟨v, hv, hvc⟩ := exists_verdict codesFound?_chained
  obtain ⟨w, hw, hwc⟩ := exists_verdict codesFound?_unchained
  have hclear : Clears v w :=
    h .default .none chained v w (by decide) hv (by rw [hvc, apply_chained])
      (by rw [hvc, apply_chained]; exact hw)
  have hcode : "UNUSED_SCHEMA" ∈ w.codes := by
    rw [hwc]
    exact List.mem_singleton_self _
  exact absurd (hclear.left_over hcode (by decide)) (by decide)

/-! ## The second run -/

/-- Judges a text and repairs it for the errors found. -/
def repaired (policy : Policy) (mode : StorageMode) (t : Text) : Except SpanFault RepairReport :=
  (validate policy mode t).map fun v => apply policy v.codes t

theorem repaired_of_validate (hv : validate policy mode t = .ok v) :
    repaired policy mode t = .ok (apply policy v.codes t) := by
  rw [repaired, hv]
  rfl

theorem repairFile_eq (policy : Policy) (mode : StorageMode) (f : SourceFile) :
    repairFile policy mode f =
      (repaired policy mode f.text).map fun r => { path := f.path, report := r } := by
  cases hv : validate policy mode f.text with
  | error fault => rw [repairFile, repaired, hv]; rfl
  | ok v =>
      rw [repairFile, repaired, hv]
      by_cases hempty : v.fixableCodes.isEmpty = true
      · have hun : ∀ c ∈ v.codes, Rule.isFixable c = false := fun c hc => by
          rw [← Bool.not_eq_true]
          intro hfix
          have hmem := (mem_fixableCodes hv).mpr ⟨hc, hfix⟩
          rw [List.isEmpty_iff.mp hempty] at hmem
          cases hmem
        simp only [Except.map, hempty, if_true, apply_of_unfixable hun]
      · simp only [Except.map, hempty]
        rfl

/-- The second repair of a text applies nothing exactly where the text is not balanced, the repair
is given up, or no step whose code is still reported moves the text.  It leaves the text as it is if
nothing is applied, and does not if one step is.  Where the first repair has cleared the text, only
the package can be left to replace. -/
theorem repaired_again {r r' : RepairReport} (hr : repaired policy mode t = .ok r)
    (hw : validate policy mode r.text = .ok w) (hr' : repaired policy mode r.text = .ok r') :
    (r'.applied = [] ↔
        Scan.balanced t = false ∨ r'.reverted = true ∨
          ∀ s ∈ steps, ¬ Moves policy w.codes r.text s) ∧
      (r'.applied = [] → r'.text = r.text) ∧
      (r'.applied.length = 1 → r'.text ≠ r.text) ∧
      (∀ v, validate policy mode t = .ok v → Clears v w → ∀ c ∈ r'.applied, c = packageCode) := by
  have hbal : Scan.balanced r.text = Scan.balanced t := by
    cases hv : validate policy mode t with
    | error fault => rw [repaired, hv] at hr; cases hr
    | ok v =>
        rw [repaired_of_validate hv] at hr
        cases hr
        exact balanced_apply policy v.codes t
  rw [repaired_of_validate hw] at hr'
  cases hr'
  refine ⟨?_, apply_of_applied_nil, fun hone => ?_, fun v _ hclear c hc => ?_⟩
  · rw [applied_apply_eq_nil_iff, hbal]
  · obtain ⟨c, hc⟩ := List.length_eq_one_iff.mp hone
    exact apply_of_applied_one hc
  · obtain ⟨hcode, hfix⟩ := isFixable_of_mem_applied hc
    exact hclear.left_over hcode hfix

/-- Either repair of the chained schemas removes one of them. -/
theorem repaired_chained :
    repaired .default .none chained = .ok ⟨unchained, ["UNUSED_SCHEMA"], false⟩ ∧
      repaired .default .none unchained =
        .ok ⟨"import \x7b z \x7d from 'zod';\n".toList, ["UNUSED_SCHEMA"], false⟩ := by
  obtain ⟨v, hv, hvc⟩ := exists_verdict codesFound?_chained
  obtain ⟨w, hw, hwc⟩ := exists_verdict codesFound?_unchained
  constructor
  · rw [repaired_of_validate hv, hvc, apply_chained]
  · rw [repaired_of_validate hw, hwc, apply_unchained]

theorem repaired_again_chained :
    ∃ r r' w, repaired .default .none chained = .ok r ∧ validate .default .none r.text = .ok w ∧
      repaired .default .none r.text = .ok r' ∧ r'.text ≠ r.text := by
  obtain ⟨hr, hr'⟩ := repaired_chained
  obtain ⟨w, hw, -⟩ := exists_verdict codesFound?_unchained
  exact ⟨_, _, w, hr, hw, hr', (repaired_again hr hw hr').2.2.1 rfl⟩

theorem repair_not_stable :
    ¬ ∀ (policy : Policy) (mode : StorageMode) (t : Text) (r r' : RepairReport),
      repaired policy mode t = .ok r → repaired policy mode r.text = .ok r' → r'.text = r.text := by
  intro h
  obtain ⟨hr, hr'⟩ := repaired_chained
  exact absurd (h _ _ _ _ _ hr hr') (by decide)

end ServiceGate.Repair
