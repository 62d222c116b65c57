/-
# Cuts in the rules

The analyses on stored data, imports, schemas and the specification with every cut checked.  They
cut at the ends of matches, at groups, at brackets and at line feeds.

Most cuts are made at the ends of a match or of a group.  The others are made where a search
backwards or forwards has stopped: at the statement's start, at the line three lines above, at the
end of a line.  A search for a character stops at a place or at an end of the text
(`bounds_statementStart`, `bounds_linesBefore`, `bounds_lineStop`).
-/
import Mathlib.Algebra.GroupWithZero.Nat
import ServiceGate.Proofs.Checked.Spec
import ServiceGate.Proofs.Pattern.Places
import ServiceGate.Rule.Imports
import ServiceGate.Rule.Schemas
import ServiceGate.Rule.Specification
import ServiceGate.Rule.Storage

namespace ServiceGate

open Scan
open Text (Bounds)

variable {t blanked : Text} {s : Source} {n lines : Nat} {m : Match} {i : ImportStatement}

/-! ## Places in the blanked text -/

theorem bounds_blanked (h : Bounds s.text n lines) : Bounds s.blanked n lines := by
  rw [s.blanked_eq]
  exact bounds_blank h

theorem bounds_statementStart (h : t.IsBoundary n) : Bounds t (Rule.statementStart t n) n := by
  obtain ⟨p, q, rfl, rfl⟩ := Text.isBoundary_iff.mp h
  rw [Rule.statementStart, Text.before_append]
  split
  · next i hlast =>
      obtain ⟨u, c, v, rfl, rfl, hc⟩ := Text.exists_of_lastWhere? hlast
      have hsize : c.utf8Size = 1 := by
        simp only [Bool.or_eq_true, beq_iff_eq] at hc
        rcases hc with (rfl | rfl) | rfl <;> rfl
      have hfront : Text.size u + 1 = Text.size (u ++ [c]) := by
        rw [Text.size_append, Text.size, hsize]
        rfl
      refine Text.bounds_iff.mpr ⟨u ++ [c], v, q, by simp, hfront, ?_⟩
      rw [← Text.size_append]
      congr 1
      simp
  · exact Text.bounds_to h

theorem bounds_linesBefore : ∀ (lines : Nat) {n : Nat}, t.IsBoundary n →
    Bounds t (Rule.linesBefore t lines n) n
  | 0, _, h => ⟨Nat.le_refl _, h, h⟩
  | lines + 1, n, h => by
      rw [Rule.linesBefore]
      split
      · next i hlast =>
          obtain ⟨u, c, v, hp, rfl, -⟩ := Text.exists_of_lastWhere? hlast
          have ht := Text.before_append_after h
          have hi : t.IsBoundary (Text.size u) := by
            rw [← ht, hp, List.append_assoc]
            exact Text.isBoundary_append u _
          have hle : Text.size u ≤ n := by
            rw [← Text.size_before h, hp, Text.size_append]
            exact Nat.le_add_right _ _
          have hrest := bounds_linesBefore lines hi
          exact ⟨Nat.le_trans hrest.le hle, hrest.start, h⟩
      · exact Text.bounds_to h

theorem bounds_lineStop (h : t.IsBoundary n) : Bounds t n (Rule.lineStop t n) := by
  obtain ⟨p, q, rfl, rfl⟩ := Text.isBoundary_iff.mp h
  rw [Rule.lineStop, Text.after_append]
  split
  · next i hfind =>
      obtain ⟨u, v, rfl, rfl, -⟩ := Text.exists_of_findFrom? hfind
      refine Text.bounds_iff.mpr ⟨p, u, v, by simp, rfl, ?_⟩
      rw [Nat.zero_add]
  · exact Text.bounds_from h

/-! ## Import statements -/

theorem exists_of_mem_imports (h : i ∈ ImportStatement.all s) :
    ∃ m ∈ ImportStatement.pattern.all s.text, i = .ofMatch m := by
  obtain ⟨m, hm, rfl⟩ := List.mem_map.mp (List.mem_filter.mp h).1
  exact ⟨m, hm, rfl⟩

theorem bounds_ofMatch (h : m ∈ ImportStatement.pattern.all t) :
    Bounds t m.start (ImportStatement.ofMatch m).start ∧
      Bounds t (ImportStatement.ofMatch m).start m.stop := by
  have hin := Pattern.in_of_mem_all h
  have hindent := isBoundary_takeWhile Text.isIndent m.text
  have hplace : t.IsBoundary (ImportStatement.ofMatch m).start := hin.bounds.inner (by
    rw [hin.between_eq]
    exact hindent)
  refine ⟨⟨Nat.le_add_right _ _, hin.bounds.start, hplace⟩, ?_, hplace, hin.bounds.stop⟩
  rw [hin.stop]
  exact Nat.add_le_add_left hindent.le_size _

theorem bounds_of_mem_imports (h : i ∈ ImportStatement.all s) : Bounds s.text i.start i.stop := by
  obtain ⟨m, hm, rfl⟩ := exists_of_mem_imports h
  exact (bounds_ofMatch hm).2

namespace Checked

/-! ## Stored data -/

def statementStart (blanked : Text) (n : Nat) : Except SpanFault Nat := do
  match (← cutTo blanked n).lastWhere? fun c => c == ';' || c == '\x7b' || c == '\x7d' with
  | some i => return i + 1
  | none => return 0

/-- Whether the promise of the query whose parenthesis is given is taken up behind the call. -/
def isChained (s : Source) (n : Nat) : Except SpanFault Bool :=
  match matchingClose? s.text n with
  | none => return false
  | some close => do
    let behind := (← cutFrom s.blanked (close + 1)).trimStart
    return behind.startsWith ".then".toList || behind.startsWith ".catch".toList

/-- Whether nothing takes up the promise of a query. -/
def isUnawaited (s : Source) (m : Match) : Except SpanFault Bool := do
  let lead ← cut s.blanked (← statementStart s.blanked m.start) m.start
  let chained ← match m.group? 1 with
    | none => pure false
    | some paren => isChained s paren.start
  return !Rule.takesPromise lead && !chained

def unawaitedQueries (ctx : Context) : Except SpanFault (List Finding) := do
  return (← filter (isUnawaited ctx.source) (Rule.queryCall.all ctx.source.blanked)).map fun m =>
    .found m.start m.text none

/-- Where the line starts that lies some line feeds before an offset. -/
def linesBefore (blanked : Text) : (lines : Nat) → (n : Nat) → Except SpanFault Nat
  | 0, n => return n
  | lines + 1, n => do
    match (← cutTo blanked n).lastWhere? (· == '\n') with
    | some i => linesBefore blanked lines i
    | none => return 0

def lineStop (blanked : Text) (n : Nat) : Except SpanFault Nat := do
  match Text.find? (← cutFrom blanked n) ['\n'] with
  | some i => return n + i
  | none => return Text.size blanked

/-- Whether nothing near a match tests its member expression. -/
def isUntested (blanked : Text) (m : Match) : Except SpanFault Bool := do
  let window ← cut blanked (← linesBefore blanked 4 m.start) (← lineStop blanked m.stop)
  return !(Rule.guardForms (m.groupText 1)).any window.contains

def untestedParses (ctx : Context) : Except SpanFault (List Finding) := do
  let blanked := ctx.source.blanked
  return (← filter (isUntested blanked) (Rule.parsedField.all blanked)).map fun m =>
    .found m.start m.text none

theorem statementStart_eq (h : t.IsBoundary n) :
    statementStart t n = .ok (Rule.statementStart t n) := by
  rw [statementStart, cutTo_eq h, ok_bind, Rule.statementStart]
  cases (t.before n).lastWhere? fun c => c == ';' || c == '\x7b' || c == '\x7d' <;> rfl

theorem isChained_eq (s : Source) (n : Nat) : isChained s n = .ok (Rule.isChained s n) := by
  rw [isChained, Rule.isChained]
  cases hclose : matchingClose? s.text n with
  | none => rfl
  | some close =>
      have hbehind : s.blanked.IsBoundary (close + 1) := by
        rw [s.blanked_eq]
        exact isBoundary_blank (bounds_of_matchingClose? hclose).2.2
      simp only [cutFrom_eq hbehind]
      rfl

theorem isUnawaited_eq (hm : m ∈ Rule.queryCall.all s.blanked) :
    isUnawaited s m = .ok (!Rule.takesPromise
      (s.blanked.between (Rule.statementStart s.blanked m.start) m.start) &&
        !(m.group? 1).any fun paren => Rule.isChained s paren.start) := by
  have hstart := (Pattern.in_of_mem_all hm).bounds.start
  rw [isUnawaited, statementStart_eq hstart, ok_bind, cut_eq (bounds_statementStart hstart),
    ok_bind]
  cases m.group? 1 with
  | none => rfl
  | some paren =>
      simp only [isChained_eq, ok_bind]
      rfl

theorem unawaitedQueries_eq (ctx : Context) :
    unawaitedQueries ctx = .ok (Rule.unawaitedQueries ctx) := by
  rw [unawaitedQueries, filter_eq fun m hm => isUnawaited_eq hm]
  rfl

theorem linesBefore_eq : ∀ (lines : Nat) {n : Nat}, t.IsBoundary n →
    linesBefore t lines n = .ok (Rule.linesBefore t lines n)
  | 0, _, _ => rfl
  | lines + 1, n, h => by
      rw [linesBefore, cutTo_eq h, ok_bind, Rule.linesBefore]
      cases hlast : (t.before n).lastWhere? (· == '\n') with
      | none => rfl
      | some i =>
          have hi : t.IsBoundary i := by
            have hone := (bounds_linesBefore (t := t) 1 h).start
            rwa [Rule.linesBefore, hlast] at hone
          exact linesBefore_eq lines hi

theorem lineStop_eq (h : t.IsBoundary n) : lineStop t n = .ok (Rule.lineStop t n) := by
  rw [lineStop, cutFrom_eq h, ok_bind, Rule.lineStop]
  cases Text.find? (t.after n) ['\n'] <;> rfl

theorem isUntested_eq (hm : m ∈ Rule.parsedField.all blanked) :
    isUntested blanked m = .ok (!Rule.isTested blanked m (m.groupText 1)) := by
  have hbounds := (Pattern.in_of_mem_all hm).bounds
  have hbefore := bounds_linesBefore 4 hbounds.start
  have hbehind := bounds_lineStop hbounds.stop
  have hwindow :
      Bounds blanked (Rule.linesBefore blanked 4 m.start) (Rule.lineStop blanked m.stop) :=
    ⟨Nat.le_trans hbefore.le (Nat.le_trans hbounds.le hbehind.le), hbefore.start, hbehind.stop⟩
  rw [isUntested, linesBefore_eq 4 hbounds.start, ok_bind, lineStop_eq hbounds.stop, ok_bind,
    cut_eq hwindow]
  rfl

theorem untestedParses_eq (ctx : Context) : untestedParses ctx = .ok (Rule.untestedParses ctx) := by
  simp only [untestedParses, filter_eq fun m hm => isUntested_eq hm]
  rfl

/-! ## Imports -/

/-- How often a name occurs in the statements of a list. -/
def countInside (blanked name : Text) (imports : List ImportStatement) : Except SpanFault Nat := do
  return (← imports.mapM fun i => do countWord (← cut blanked i.start i.stop) name).sum

/-- Whether a name occurs in code outside of every import statement. -/
def usedOutsideImports (blanked : Text) (imports : List ImportStatement) (name : Text) :
    Except SpanFault Bool := do
  let total ← countWord blanked name
  let inside ← countInside blanked name imports
  return inside < total

/-- Where a member's name first occurs in its statement. -/
def memberOffset (t : Text) (i : ImportStatement) (m : ImportMember) : Except SpanFault Nat := do
  match Text.find? (← cut t i.start i.stop) m.boundAs with
  | some n => return i.start + n
  | none => return i.start

/-- Whether a member is optional and used nowhere but in imports. -/
def isUnusedOptional (ctx : Context) (imports : List ImportStatement) (m : ImportMember) :
    Except SpanFault Bool := do
  if ctx.policy.optionalImportMembers.contains m.imported then
    return !(← usedOutsideImports ctx.source.blanked imports m.boundAs)
  else return false

def unusedMember (t : Text) (i : ImportStatement) (m : ImportMember) : Except SpanFault Finding :=
  do
  return .found (← memberOffset t i m) m.boundAs (some (Rule.unusedMemberMessage i m))

/-- Optional members that are used nowhere but in imports. -/
def unusedOptionalImports (ctx : Context) : Except SpanFault (List Finding) :=
  let imports := ImportStatement.all ctx.source
  flatMap (fun i => do
    (← filter (isUnusedOptional ctx imports) i.members).mapM (unusedMember ctx.source.text i))
      imports

theorem countInside_eq {imports : List ImportStatement}
    (h : ∀ i ∈ imports, Bounds t i.start i.stop) (name : Text) :
    countInside t name imports =
      .ok (imports.foldr (fun i n => n + (t.between i.start i.stop).countWord name) 0) := by
  have hcounts : (imports.mapM fun i => do countWord (← cut t i.start i.stop) name) =
      Except.ok (ε := SpanFault) (imports.map fun i =>
        (t.between i.start i.stop).countWord name) := by
    refine mapM_eq fun i hi => ?_
    rw [cut_eq (h i hi), ok_bind, countWord_eq]
  rw [countInside, hcounts, ok_bind]
  refine congrArg Except.ok ?_
  clear hcounts h
  induction imports with
  | nil => rfl
  | cons i imports ih =>
      rw [List.map_cons, List.sum_cons, ih, List.foldr_cons]
      exact Nat.add_comm _ _

theorem usedOutsideImports_eq {imports : List ImportStatement}
    (h : ∀ i ∈ imports, Bounds t i.start i.stop) (name : Text) :
    usedOutsideImports t imports name = .ok (Rule.usedOutsideImports t imports name) := by
  rw [usedOutsideImports, countWord_eq, ok_bind, countInside_eq h]
  rfl

theorem memberOffset_eq (h : Bounds t i.start i.stop) (m : ImportMember) :
    memberOffset t i m = .ok (Rule.memberOffset t i m) := by
  rw [memberOffset, cut_eq h, ok_bind, Rule.memberOffset]
  cases Text.find? (t.between i.start i.stop) m.boundAs <;> rfl

theorem unusedOptionalImports_eq (ctx : Context) :
    unusedOptionalImports ctx = .ok (Rule.unusedOptionalImports ctx) := by
  have hplaced : ∀ i ∈ ImportStatement.all ctx.source, Bounds ctx.source.blanked i.start i.stop :=
    fun i hi => bounds_blanked (bounds_of_mem_imports hi)
  refine flatMap_eq fun i hi => ?_
  have hunused : filter (isUnusedOptional ctx (ImportStatement.all ctx.source)) i.members =
      .ok (i.members.filter fun m => ctx.policy.optionalImportMembers.contains m.imported &&
        !Rule.usedOutsideImports ctx.source.blanked (ImportStatement.all ctx.source)
        m.boundAs) := by
    refine filter_eq fun m _ => ?_
    rw [isUnusedOptional, usedOutsideImports_eq hplaced]
    cases ctx.policy.optionalImportMembers.contains m.imported <;> rfl
  simp only [hunused, ok_bind]
  refine mapM_eq fun m _ => ?_
  rw [unusedMember, memberOffset_eq (bounds_of_mem_imports hi)]
  rfl

/-! ## Schemas -/

/-- The schema of a declaration, if its name occurs once only. -/
def unusedSchema (blanked : Text) (m : Match) : Except SpanFault (Option (Text × Nat)) :=
  match m.group? 1 with
  | none => return none
  | some name => do
    return if (← countWord blanked name.text) ≤ 1 then some (name.text, name.start) else none

/-- The schemas whose name occurs once only, with the offset of the name. -/
def unusedSchemas (blanked : Text) : Except SpanFault (List (Text × Nat)) :=
  filterMap (unusedSchema blanked) (Rule.schemaDeclaration.all blanked)

def unusedSchemaDeclarations (ctx : Context) : Except SpanFault (List Finding) := do
  return (← unusedSchemas ctx.source.blanked).map fun (name, offset) =>
    .found offset name (some s!"Schema '{String.ofList name}' is declared but never used")

theorem unusedSchemas_eq (blanked : Text) :
    unusedSchemas blanked = .ok (Rule.unusedSchemas blanked) := by
  refine filterMap_eq fun m _ => ?_
  rw [unusedSchema]
  cases m.group? 1 with
  | none => rfl
  | some name =>
      simp only [countWord_eq]
      rfl

theorem unusedSchemaDeclarations_eq (ctx : Context) :
    unusedSchemaDeclarations ctx = .ok (Rule.unusedSchemaDeclarations ctx) := by
  rw [unusedSchemaDeclarations, unusedSchemas_eq]
  rfl

/-! ## The specification -/

def missingSpec (ctx : Context) : Except SpanFault (List Finding) := do
  return if (← findSpec ctx.source).isSome then [] else [.absent none]

/-- The findings of a rule on the specification, if there is one. -/
def onSpec (rule : Spec → Context → Except SpanFault (List Finding)) (ctx : Context) :
    Except SpanFault (List Finding) := do
  match ← findSpec ctx.source with
  | none => return []
  | some spec => rule spec ctx

def missingRequestBodies (spec : Spec) (ctx : Context) : Except SpanFault (List Finding) := do
  return (← withoutRequestBody spec ctx.source.text ctx.policy).map
    (Rule.operationFinding "requestBody")

def missingResponses (spec : Spec) (ctx : Context) : Except SpanFault (List Finding) := do
  return (← withoutResponses spec ctx.source.text).map (Rule.operationFinding "responses")

def undeclaredSchemas (spec : Spec) (ctx : Context) : Except SpanFault (List Finding) := do
  return (← missingSchemas spec ctx.source ctx.policy).map fun name =>
    .found spec.declaredAt name (some s!"components.schemas is missing '{String.ofList name}'")

/-- All routes that the specification does not declare, in one finding. -/
def drift (spec : Spec) (ctx : Context) : Except SpanFault (List Finding) := do
  match ← driftKeys spec ctx.source ctx.policy with
  | [] => return []
  | keys =>
    let joined := Text.join ", ".toList keys
    return [.found spec.declaredAt joined (some
      s!"Routes implemented in code are missing from the OpenAPI spec: {String.ofList joined}")]

theorem missingSpec_eq (ctx : Context) : missingSpec ctx = .ok (Rule.missingSpec ctx) := by
  rw [missingSpec, findSpec_eq]
  rfl

theorem onSpec_eq {rule : Spec → Context → Except SpanFault (List Finding)}
    {model : Spec → Context → List Finding} (h : ∀ spec ctx, rule spec ctx = .ok (model spec ctx))
    (ctx : Context) : onSpec rule ctx = .ok (Rule.onSpec model ctx) := by
  rw [onSpec, findSpec_eq, ok_bind, Rule.onSpec]
  cases Spec.find? ctx.source with
  | none => rfl
  | some spec => exact h spec ctx

theorem missingRequestBodies_eq (spec : Spec) (ctx : Context) :
    missingRequestBodies spec ctx = .ok (Rule.missingRequestBodies spec ctx) := by
  rw [missingRequestBodies, withoutRequestBody_eq]
  rfl

theorem missingResponses_eq (spec : Spec) (ctx : Context) :
    missingResponses spec ctx = .ok (Rule.missingResponses spec ctx) := by
  rw [missingResponses, withoutResponses_eq]
  rfl

theorem undeclaredSchemas_eq (spec : Spec) (ctx : Context) :
    undeclaredSchemas spec ctx = .ok (Rule.missingSchemas spec ctx) := by
  rw [undeclaredSchemas, missingSchemas_eq]
  rfl

theorem drift_eq (spec : Spec) (ctx : Context) : drift spec ctx = .ok (Rule.drift spec ctx) := by
  rw [drift, driftKeys_eq, ok_bind, Rule.drift]
  cases spec.driftKeys ctx.source ctx.policy <;> rfl

end Checked

end ServiceGate
