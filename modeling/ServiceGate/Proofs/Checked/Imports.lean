/-
# Cuts in the repairs of imports

Import statements are written anew, taken out and added, and calls and types are replaced, with
every cut checked.  Statements do not overlap, not even with the lines that they start on
(`pairwise_imports`), so several of them can be edited from the back.

An import statement is written in the place of the one that was read, or taken out with its line;
one that is added goes to a line of its own, behind the last one or at the start. Where it starts
and ends the match of the pattern says, and a call or a type that is replaced is a match as well.
-/
import ServiceGate.Proofs.Checked.Edits
import ServiceGate.Repair.Imports

namespace ServiceGate

open Scan
open Text (Agree Bounds)

variable {α : Type} {t u : Text} {s : Source} {i : ImportStatement} {policy : Policy}

/-- Every statement ends in front of the line on which the next one starts. -/
theorem pairwise_imports (s : Source) :
    (ImportStatement.all s).Pairwise fun i j => i.stop ≤ s.text.lineStart j.start := by
  have hmatches := ImportStatement.pattern.pairwise_all s.text
  refine (List.Pairwise.map ImportStatement.ofMatch (fun m m' h => h) ?_).filter _
  refine hmatches.imp_of_mem fun {m m'} _ hm' hle => Nat.le_trans hle ?_
  obtain ⟨hkeyword, -⟩ := bounds_ofMatch hm'
  have hline : s.text.StartsLine m'.start := Pattern.startsLine_of_mem_all hm'
  exact hline.le_lineStart hkeyword.le hkeyword.stop

namespace Checked

/-! ## Lists -/

theorem anyM_eq {f : α → Except SpanFault Bool} {g : α → Bool} : ∀ {l : List α},
    (∀ a ∈ l, f a = .ok (g a)) → l.anyM f = .ok (l.any g)
  | [], _ => rfl
  | a :: l, h => by
      obtain ⟨ha, hl⟩ := List.forall_mem_cons.mp h
      rw [List.anyM, ha, ok_bind, List.any_cons]
      cases g a with
      | true => rfl
      | false => exact anyM_eq hl

theorem foldlM_eq {f : Text → α → Except SpanFault Text} {g : Text → α → Text}
    (h : ∀ t a, f t a = .ok (g t a)) : ∀ (l : List α) (t : Text), l.foldlM f t = .ok (l.foldl g t)
  | [], _ => rfl
  | a :: l, t => by
      rw [List.foldlM_cons, h, ok_bind, List.foldl_cons]
      exact foldlM_eq h l (g t a)

/-! ## Statements -/

/-- Writes a statement in the place of the one it was read from. -/
def replaceImport (t : Text) (i : ImportStatement) : Except SpanFault Text :=
  match i.render with
  | some line => splice t i.start i.stop line
  | none => removeSpan t i.start i.stop

def isKept (policy : Policy) (blanked : Text) (imports : List ImportStatement) (m : ImportMember) :
    Except SpanFault Bool :=
  if policy.optionalImportMembers.contains m.imported then
    usedOutsideImports blanked imports m.boundAs
  else return true

def keepUsedMembers (policy : Policy) (blanked : Text) (imports : List ImportStatement)
    (i : ImportStatement) : Except SpanFault ImportStatement := do
  return { i with members := ← filter (isKept policy blanked imports) i.members }

def shorten (policy : Policy) (blanked : Text) (imports : List ImportStatement)
    (i : ImportStatement) : Except SpanFault (ImportStatement × ImportStatement) := do
  return (i, ← keepUsedMembers policy blanked imports i)

def removeUnusedOptionalMembers (policy : Policy) (t : Text) : Except SpanFault (Option Text) := do
  let s := Source.of t
  let imports := ImportStatement.all s
  let shortened := (← imports.mapM (shorten policy s.blanked imports)).filter
    fun (before, after) => after.members.length != before.members.length
  if shortened.isEmpty then return none
  else return some (← shortened.foldrM (fun (_, after) out => replaceImport out after) t)

/-- Adds a line with an import of members behind the last import, or at the start. -/
def addImportLine (t : Text) (imports : List ImportStatement) (moduleName : Text)
    (members : List ImportMember) : Except SpanFault Text :=
  let quote := (imports.head?.map (·.quote)).getD '\''
  match ImportStatement.render ⟨0, 0, false, none, none, members, quote, moduleName⟩ with
  | none => return t
  | some line =>
    match imports.getLast? with
    | some last => insertAt t last.stop ('\n' :: line)
    | none => return line ++ '\n' :: t

/-- Imports names from a module, or from another one that is as good. -/
def ensureNamedImport (moduleName : Text) (others names : List Text) (t : Text) :
    Except SpanFault Text :=
  let imports := ImportStatement.all (.of t)
  let modules := moduleName :: others
  match Repair.missingNames imports modules names with
  | [] => return t
  | missing =>
    let members := missing.map ImportMember.named
    match imports.find? (Repair.takesMembers modules) with
    | some i => replaceImport t { i with members := i.members ++ members }
    | none => addImportLine t imports moduleName members

def addImport (moduleName : String) (others names : List String) (t : Text) :
    Except SpanFault (Option Text) := do
  let new ← ensureNamedImport moduleName.toList (others.map String.toList)
    (names.map String.toList) t
  return if new = t then none else some new

theorem replaceImport_eq (h : Bounds t i.start i.stop) :
    replaceImport t i = .ok (Repair.replaceImport t i) ∧
      Agree (t.lineStart i.start) t (Repair.replaceImport t i) := by
  rw [replaceImport, Repair.replaceImport]
  cases i.render with
  | none => exact removeSpan_eq h.start h.stop
  | some line =>
      have hline := Text.bounds_lineStart h.start
      exact ⟨splice_eq h.start h.stop line,
        (Text.agree_splice h.start i.stop line).mono hline.start hline.le⟩

theorem keepUsedMembers_eq (i : ImportStatement) :
    keepUsedMembers policy s.blanked (ImportStatement.all s) i =
      .ok (Repair.keepUsedMembers policy s.blanked (ImportStatement.all s) i) := by
  have hkept : filter (isKept policy s.blanked (ImportStatement.all s)) i.members =
      .ok (i.members.filter fun m => !policy.optionalImportMembers.contains m.imported ||
        Rule.usedOutsideImports s.blanked (ImportStatement.all s) m.boundAs) := by
    refine filter_eq fun m _ => ?_
    rw [isKept, usedOutsideImports_eq fun i hi => bounds_blanked (bounds_of_mem_imports hi)]
    cases policy.optionalImportMembers.contains m.imported <;> rfl
  rw [keepUsedMembers, hkept]
  rfl

/-- Statements are edited from the back at places of the text as it was. -/
theorem foldrM_imports {l : List α} (statement : α → ImportStatement)
    {f : α → Text → Except SpanFault Text} {g : α → Text → Text}
    (hedit : ∀ a u, Bounds u (statement a).start (statement a).stop →
      f a u = .ok (g a u) ∧ Agree (u.lineStart (statement a).start) u (g a u))
    (hbounds : ∀ a ∈ l, Bounds t (statement a).start (statement a).stop)
    (horder : l.Pairwise fun a b => (statement a).stop ≤ t.lineStart (statement b).start) :
    l.foldrM f t = .ok (l.foldr g t) := by
  refine foldrM_eq (fun a => t.lineStart (statement a).start) (fun a => (statement a).stop)
    (fun a ha u hagree => ?_) (fun a ha => ?_) horder
  · have hplace := hbounds a ha
    rw [(hagree.mono hplace.start hplace.le).lineStart_eq]
    exact hedit a u (hagree.bounds hplace)
  · have hplace := hbounds a ha
    have hline := Text.bounds_lineStart hplace.start
    exact ⟨Nat.le_trans hline.le hplace.le, hline.start, hplace.stop⟩

theorem removeUnusedOptionalMembers_eq (policy : Policy) (t : Text) :
    removeUnusedOptionalMembers policy t = .ok (Repair.removeUnusedOptionalMembers policy t) := by
  have hshorten := mapM_eq (l := ImportStatement.all (.of t))
    (f := shorten policy (Source.of t).blanked (ImportStatement.all (.of t)))
    (g := fun i => (i, Repair.keepUsedMembers policy (Source.of t).blanked
      (ImportStatement.all (.of t)) i)) fun i _ => by
        rw [shorten, keepUsedMembers_eq]
        rfl
  simp only [removeUnusedOptionalMembers, Repair.removeUnusedOptionalMembers, hshorten, ok_bind]
  split_ifs
  · rfl
  · rw [foldrM_imports (fun x : ImportStatement × ImportStatement => x.2)
      (fun _ _ => replaceImport_eq)]
    · rfl
    · intro x hx
      obtain ⟨i, hi, rfl⟩ := List.mem_map.mp (List.mem_filter.mp hx).1
      have hplace : Bounds t i.start i.stop := bounds_of_mem_imports (s := .of t) hi
      exact hplace
    · refine List.Pairwise.filter _ (List.pairwise_map.mpr ?_)
      exact pairwise_imports (.of t)

theorem addImportLine_eq (moduleName : Text) (members : List ImportMember) :
    addImportLine t (ImportStatement.all (.of t)) moduleName members =
      .ok (Repair.addImportLine t (ImportStatement.all (.of t)) moduleName members) := by
  simp only [addImportLine, Repair.addImportLine]
  generalize ImportStatement.render _ = rendered
  cases rendered with
  | none => rfl
  | some line =>
      cases hlast : (ImportStatement.all (.of t)).getLast? with
      | none => rfl
      | some last =>
          have hplace : Bounds t last.start last.stop :=
            bounds_of_mem_imports (s := .of t) (List.mem_of_getLast? hlast)
          exact insertAt_eq hplace.stop _

theorem ensureNamedImport_eq (moduleName : Text) (others names : List Text) (t : Text) :
    ensureNamedImport moduleName others names t =
      .ok (Repair.ensureNamedImport moduleName others names t) := by
  simp only [ensureNamedImport, Repair.ensureNamedImport]
  cases Repair.missingNames (ImportStatement.all (.of t)) (moduleName :: others) names with
  | nil => rfl
  | cons name missing =>
      simp only
      cases hfind :
        (ImportStatement.all (.of t)).find? (Repair.takesMembers (moduleName :: others)) with
      | none => exact addImportLine_eq moduleName _
      | some i =>
          have hplace : Bounds t i.start i.stop :=
            bounds_of_mem_imports (s := .of t) (List.mem_of_find?_eq_some hfind)
          exact (replaceImport_eq (i := { i with
            members := i.members ++ (name :: missing).map .named }) hplace).1

theorem addImport_eq (moduleName : String) (others names : List String) (t : Text) :
    addImport moduleName others names t = .ok (Repair.addImport moduleName others names t) := by
  rw [addImport, ensureNamedImport_eq]
  rfl

/-! ## The identifier package and qualified types -/

def isLeft (blanked name : Text) : Except SpanFault Bool := do
  return 0 < (← countWord blanked name)

/-- Takes out the imports of the identifier package and calls the built-in generator instead. -/
def replaceIdentifierPackage (t : Text) : Except SpanFault (Option Text) := do
  let imports := (ImportStatement.all (.of t)).filter (·.isFrom ["uuid".toList])
  let calls := imports.flatMap Repair.boundCalls
  if imports.isEmpty then return none
  else if imports.any (·.members.any (·.imported != Repair.generatorMember)) then return none
  else
    let cut ← imports.foldrM (fun i out => removeSpan out i.start i.stop) t
    let out ← calls.foldlM (fun out (_, call) =>
      replaceInCode call (fun _ => "randomUUID(".toList) out) cut
    let blanked := blank out
    if ← calls.anyM fun (name, _) => isLeft blanked name then return none
    else return some (← ensureNamedImport "crypto".toList ["node:crypto".toList]
      ["randomUUID".toList] out)

/-- Writes the framework's types without their namespace and imports them. -/
def unqualifyTypes (t : Text) : Except SpanFault (Option Text) := do
  let found := Repair.codeMatches Forbidden.qualifiedType (.of t)
  if found.isEmpty then return none
  else
    let bare := fun m : Match => m.groupText 1
    let out ← replaceMatches t bare 0 found
    return some (← ensureNamedImport Rule.express [] (found.map bare).eraseDups out)

theorem replaceIdentifierPackage_eq (t : Text) :
    replaceIdentifierPackage t = .ok (Repair.replaceIdentifierPackage t) := by
  have hcut : ((ImportStatement.all (.of t)).filter (·.isFrom ["uuid".toList])).foldrM
      (fun i out => removeSpan out i.start i.stop) t =
        .ok (((ImportStatement.all (.of t)).filter (·.isFrom ["uuid".toList])).foldr
          (fun i out => Repair.removeSpan out i.start i.stop) t) := by
    refine foldrM_imports (fun i => i) (fun i u h => removeSpan_eq h.start h.stop)
      (fun i hi => ?_) ((pairwise_imports (.of t)).filter _)
    exact bounds_of_mem_imports (s := .of t) (List.mem_filter.mp hi).1
  have hcalls : ∀ (calls : List (Text × Pattern)) (out : Text),
      calls.foldlM (fun out (_, call) => replaceInCode call (fun _ => "randomUUID(".toList) out)
      out =
        .ok (calls.foldl (fun out (_, call) =>
          Repair.replaceInCode call (fun _ => "randomUUID(".toList) out) out) :=
    foldlM_eq fun out (_, call) => replaceInCode_eq call _ out
  have hleft : ∀ (calls : List (Text × Pattern)) (blanked : Text),
      calls.anyM (fun (name, _) => isLeft blanked name) =
        .ok (calls.any fun (name, _) => 0 < blanked.countWord name) := fun calls blanked =>
    anyM_eq fun (name, _) _ => by
      simp only [isLeft, countWord_eq]
      rfl
  simp only [replaceIdentifierPackage, Repair.replaceIdentifierPackage]
  split_ifs with _ _ hused
  · rfl
  · rfl
  · rw [hcut, ok_bind, hcalls, ok_bind, hleft, ok_bind, if_pos hused]
    rfl
  · rw [hcut, ok_bind, hcalls, ok_bind, hleft, ok_bind, if_neg hused, ensureNamedImport_eq]
    rfl

theorem unqualifyTypes_eq (t : Text) : unqualifyTypes t = .ok (Repair.unqualifyTypes t) := by
  have hreplace := replaceInCode_eq Forbidden.qualifiedType (fun m => m.groupText 1) t
  rw [replaceInCode, Repair.replaceInCode] at hreplace
  simp only [unqualifyTypes, Repair.unqualifyTypes]
  split_ifs
  · rfl
  · rw [hreplace, ok_bind, ensureNamedImport_eq]
    rfl

end Checked

end ServiceGate
