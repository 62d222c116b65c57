/-
# Cuts in the removal of schemas

The declarations of unused schemas are found in the blanked text and taken out of the text itself
from the back.  A declaration starts a line in both (`startsLine_of_blank`), and its name stands at
a place of both, because a name holds no blank (`isBoundary_of_schema`).

The removals of a pass are made one after the other, from the back.  A removal keeps the text up to
the start of the line it removes from, and the names that are still to come stand in front of that
(`pairwise_unusedSchemas`).
-/
import ServiceGate.Proofs.Checked.Parameters

namespace ServiceGate

open Pattern Scan
open Text (Agree Bounds)

variable {t : Text} {n : Nat} {m : Match} {g : Capture} {x : Text × Nat}

/-! ## Declarations in the text itself -/

/-- A line that starts in the blanked text starts in the text. -/
theorem startsLine_of_blank (h : (blank t).StartsLine n) : t.StartsLine n := by
  obtain ⟨front, back, hcut, rfl, hlast⟩ := h
  rcases List.eq_nil_or_concat' front with rfl | ⟨front, c, rfl⟩
  · exact ⟨[], t, rfl, rfl, rfl⟩
  · obtain rfl : c = '\n' := by simpa using hlast
    rw [List.append_assoc] at hcut
    obtain ⟨p, q, rfl, hsize⟩ := exists_of_blank (by decide) hcut
    refine ⟨p ++ ['\n'], q, by simp, ?_, by simp⟩
    rw [Text.size_append, Text.size_append, hsize]

/-- The name of a declaration stands at a place of the text. -/
theorem isBoundary_of_schema (hm : m ∈ Rule.schemaDeclaration.all (blank t))
    (hg : m.group? 1 = some g) : t.IsBoundary g.start := by
  have hin := in_of_mem_all hm
  obtain ⟨front, back, hcut, hstart, -⟩ := hin.exists_group hg
  have hspells : Spells name g.text := hin.spells_group rfl hg
  obtain ⟨hne, hname⟩ := spells_name hspells
  obtain ⟨c, text, htext⟩ := List.exists_cons_of_ne_nil hne
  rw [htext, List.append_assoc] at hcut
  have hc : c ≠ ' ' := by
    rintro rfl
    exact absurd (hname ' ' (by rw [htext]; exact List.mem_cons_self)) (by decide)
  obtain ⟨p, q, rfl, hsize⟩ := exists_of_blank hc hcut
  rw [hstart, ← hsize]
  exact Text.isBoundary_append p _

theorem exists_of_mem_unusedSchemas {blanked : Text} (h : x ∈ Rule.unusedSchemas blanked) :
    ∃ m ∈ Rule.schemaDeclaration.all blanked, ∃ g, m.group? 1 = some g ∧ g.start = x.2 := by
  obtain ⟨m, hm, hx⟩ := List.mem_filterMap.mp h
  obtain ⟨g, hg, hx⟩ := Option.bind_eq_some_iff.mp hx
  split_ifs at hx
  obtain rfl := Option.some.inj hx
  exact ⟨m, hm, g, hg, rfl⟩

theorem isBoundary_of_mem_unusedSchemas (h : x ∈ Rule.unusedSchemas (blank t)) :
    t.IsBoundary x.2 := by
  obtain ⟨m, hm, g, hg, hx⟩ := exists_of_mem_unusedSchemas h
  rw [← hx]
  exact isBoundary_of_schema hm hg

theorem pairwise_declarations (t : Text) : (Rule.unusedSchemas (blank t)).Pairwise fun x y =>
    ∃ m ∈ Rule.schemaDeclaration.all (blank t), ∃ g, m.group? 1 = some g ∧ g.start = x.2 ∧
      m.stop ≤ t.lineStart y.2 := by
  rw [Rule.unusedSchemas, List.pairwise_filterMap]
  refine (Rule.schemaDeclaration.pairwise_all (blank t)).imp_of_mem fun {m m'} hm hm' hle => ?_
  intro x hx y hy
  obtain ⟨g, hg, hx⟩ := Option.bind_eq_some_iff.mp hx
  obtain ⟨g', hg', hy⟩ := Option.bind_eq_some_iff.mp hy
  split_ifs at hx hy
  obtain rfl := Option.some.inj hx
  obtain rfl := Option.some.inj hy
  obtain ⟨-, -, -, -, -, hinside, -⟩ := (in_of_mem_all hm').exists_group hg'
  have hline : t.StartsLine m'.start := startsLine_of_blank (startsLine_of_mem_all hm')
  exact ⟨m, hm, g, hg, rfl,
    Nat.le_trans hle (hline.le_lineStart hinside (isBoundary_of_schema hm' hg'))⟩

theorem pairwise_unusedSchemas (t : Text) :
    (Rule.unusedSchemas (blank t)).Pairwise fun x y => x.2 ≤ t.lineStart y.2 :=
  (pairwise_declarations t).imp fun ⟨m, hm, g, hg, hx, hle⟩ => by
    obtain ⟨-, -, -, -, hstop, -, hinside⟩ := (in_of_mem_all hm).exists_group hg
    omega

namespace Checked

/-! ## Ends of statements -/

/-- Whether a statement goes on behind the line feed at an offset. -/
def continuesBehind (t : Text) (n : Nat) : Except SpanFault Bool := do
  return (← cutFrom t n).trimStart.startsWith ".".toList

/-- Where a statement ends whose rest is marked, at a given depth of groups. -/
def stopIn (t : Text) (depth : Int) : List Mark → Except SpanFault Nat
  | [] => return Text.size t
  | m :: rest =>
    if m.kind == .literal then stopIn t depth rest
    else if m.char == '\n' && depth ≤ 0 then do
      if ← continuesBehind t m.offset then stopIn t depth rest else return m.offset
    else if m.kind != .code then stopIn t depth rest
    else if isOpener m.char then stopIn t (depth + 1) rest
    else if isCloser m.char then stopIn t (depth - 1) rest
    else if m.char == ';' && depth ≤ 0 then return m.offset + 1
    else stopIn t depth rest

/-- Where the statement ends that goes through an offset. -/
def statementStop (t : Text) (n : Nat) : Except SpanFault Nat := stopIn t 0 (marks t n)

theorem stopIn_eq : ∀ {ms : List Mark} {depth : Int}, ms ⊆ marks t n →
    stopIn t depth ms = .ok (Repair.stopIn t depth ms)
  | [], _, _ => rfl
  | m :: ms, depth, h => by
      obtain ⟨hm, hms⟩ := List.cons_subset.mp h
      have hbehind : continuesBehind t m.offset = .ok (Repair.continuesBehind t m.offset) := by
        rw [continuesBehind, cutFrom_eq (isBoundary_of_mem_marks hm)]
        rfl
      rw [stopIn, Repair.stopIn, hbehind, ok_bind]
      split_ifs
      · exact stopIn_eq hms
      · exact stopIn_eq hms
      · rfl
      · exact stopIn_eq hms
      · exact stopIn_eq hms
      · exact stopIn_eq hms
      · rfl
      · exact stopIn_eq hms

/-! ## Removing schemas -/

/-- Removes the statement of the schema whose name stands at an offset. -/
def removeSchema (t : Text) (n : Nat) : Except SpanFault Text := do
  let start ← lineStart t n
  let stop ← statementStop t n
  removeSpan t start stop

/-- Removes the schemas that are unused, pass after pass. -/
def removeSchemaPasses : (passes : Nat) → Text → Except SpanFault Text
  | 0, t => return t
  | passes + 1, t => do
    match ← unusedSchemas (blank t) with
    | [] => return t
    | unused =>
      removeSchemaPasses passes
        (← unused.foldrM (fun (_, offset) out => removeSchema out offset) t)

def removeUnusedSchemas (t : Text) : Except SpanFault (Option Text) := do
  match (← unusedSchemas (blank t)).length with
  | 0 => return none
  | passes => return some (← removeSchemaPasses passes t)

theorem removeSchema_eq (h : t.IsBoundary n) : removeSchema t n = .ok (Repair.removeSchema t n) ∧
    Agree (t.lineStart n) t (Repair.removeSchema t n) := by
  obtain ⟨hremove, hagree⟩ :=
    removeSpan_eq (Text.bounds_lineStart h).start (isBoundary_statementStop t n)
  rw [Text.lineStart_lineStart h] at hagree
  rw [removeSchema, lineStart_eq h, ok_bind, statementStop, stopIn_eq (List.Subset.refl _)]
  exact ⟨hremove, hagree⟩

theorem removeSchemaPasses_eq : ∀ (passes : Nat) (t : Text),
    removeSchemaPasses passes t = .ok (Repair.removeSchemaPasses passes t)
  | 0, _ => rfl
  | passes + 1, t => by
      have hpass := foldrM_eq (t := t) (l := Rule.unusedSchemas (blank t))
        (f := fun (_, offset) out => removeSchema out offset)
        (g := fun (_, offset) out => Repair.removeSchema out offset)
        (fun x => t.lineStart x.2) (fun x => x.2)
        (fun x hx u hagree => by
          rw [hagree.lineStart_eq]
          exact removeSchema_eq hagree.right)
        (fun x hx => Text.bounds_lineStart (isBoundary_of_mem_unusedSchemas hx))
        (pairwise_unusedSchemas t)
      rw [removeSchemaPasses, unusedSchemas_eq, ok_bind, Repair.removeSchemaPasses]
      cases hlist : Rule.unusedSchemas (blank t) with
      | nil => rfl
      | cons x unused =>
          rw [hlist] at hpass
          simp only [hpass, ok_bind]
          exact removeSchemaPasses_eq passes _

theorem removeUnusedSchemas_eq (t : Text) :
    removeUnusedSchemas t = .ok (Repair.removeUnusedSchemas t) := by
  rw [removeUnusedSchemas, unusedSchemas_eq, ok_bind, Repair.removeUnusedSchemas]
  cases (Rule.unusedSchemas (blank t)).length with
  | zero => rfl
  | succ passes =>
      simp only [removeSchemaPasses_eq]
      rfl

end Checked

end ServiceGate
