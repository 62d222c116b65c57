/-
# The cascade of unused schemas

A schema that only an unused one has used is unused when that one is gone.  One pass removes the
schemas that are unused (`removePass`); it takes something off a text that has such schemas
(`size_removePass_lt`), so passes come to an end.  `cascade t` is the number of them.

The removal makes no more passes than there are unused schemas at first, whatever the cascade needs:

    nothing is left unused ↔ cascade t ≤ number of schemas unused at first

(`removeUnusedSchemas_settles`).  What is left is the rest of the cascade, so a chain of two schemas
takes a second removal (`not_always_settles`).
-/
import ServiceGate.Proofs.Balanced.Statements
import ServiceGate.Proofs.Repair.Again

namespace ServiceGate

open Scan
open Text (Agree Bounds)

variable {t : Text} {n start stop : Nat} {x : Text × Nat}

namespace Repair

/-! ## What one removal takes -/

theorem size_splice_nil (h : Bounds t start stop) :
    Text.size (t.splice start stop []) + stop = Text.size t + start := by
  obtain ⟨p, w, q, rfl, rfl, rfl⟩ := Text.bounds_iff.mp h
  rw [splice_append]
  simp only [Text.size_append, Text.size]
  omega

theorem le_behindIndent (t : Text) (n : Nat) : n ≤ behindIndent t n := Nat.le_add_right _ _

theorem le_behindLineEnd? {k : Nat} (h : behindLineEnd? t n = some k) : n ≤ k := by
  rw [behindLineEnd?] at h
  split at h
  · obtain rfl := Option.some.inj h
    omega
  · obtain rfl := Option.some.inj h
    omega
  · obtain rfl := Option.some.inj h
    omega
  · cases h

theorem exists_removeSpan (h : Bounds t start stop) :
    ∃ a b, Bounds t a b ∧ a ≤ start ∧ stop ≤ b ∧ removeSpan t start stop = t.splice a b [] := by
  have hline := Text.bounds_lineStart h.start
  have hindent := isBoundary_behindIndent h.stop
  have hle := le_behindIndent t stop
  have hstop := h.le
  have hstretch : ∃ a b, Bounds t a b ∧ a ≤ start ∧ stop ≤ b ∧
      t.splice start (behindIndent t stop) [] = t.splice a b [] :=
    ⟨start, behindIndent t stop, ⟨by omega, h.start, hindent⟩, Nat.le_refl _, hle, rfl⟩
  unfold removeSpan
  dsimp only
  split_ifs
  · cases hend : behindLineEnd? t (behindIndent t stop) with
    | none => exact hstretch
    | some k =>
        have hk := le_behindLineEnd? hend
        have hfront := hline.le
        exact ⟨t.lineStart start, k,
          ⟨by omega, hline.start, isBoundary_behindLineEnd? hindent hend⟩, hfront, by omega, rfl⟩
  · exact hstretch

theorem lt_stopIn {n : Nat} (hn : n < Text.size t) : ∀ {ms : List Mark} {depth : Int},
    (∀ m ∈ ms, n ≤ m.offset ∧ (m.offset = n → m.char ≠ '\n')) → n < stopIn t depth ms
  | [], _, _ => hn
  | m :: ms, depth, h => by
      obtain ⟨⟨hle, hchar⟩, hms⟩ := List.forall_mem_cons.mp h
      rw [stopIn]
      split_ifs with _ hfeed
      · exact lt_stopIn hn hms
      · exact lt_stopIn hn hms
      · simp only [Bool.and_eq_true, beq_iff_eq] at hfeed
        exact Nat.lt_of_le_of_ne hle fun heq => hchar heq.symm hfeed.1
      · exact lt_stopIn hn hms
      · exact lt_stopIn hn hms
      · exact lt_stopIn hn hms
      · omega
      · exact lt_stopIn hn hms

theorem le_statementStop (h : t.IsBoundary n) : n ≤ statementStop t n := by
  have hle : ∀ {ms : List Mark} {depth : Int}, (∀ m ∈ ms, n ≤ m.offset) →
      n ≤ stopIn t depth ms := by
    intro ms
    induction ms with
    | nil => exact fun _ => h.le_size
    | cons m ms ih =>
        intro depth hms
        obtain ⟨hm, hms⟩ := List.forall_mem_cons.mp hms
        rw [stopIn]
        split_ifs <;> first | exact ih hms | omega
  exact hle fun m hm => (exists_of_mem_marks hm).choose_spec.choose_spec.2.2

theorem lt_statementStop {p q : Text} {c : Char} (hc : c ≠ '\n') :
    Text.size p < statementStop (p ++ c :: q) (Text.size p) := by
  refine lt_stopIn ?_ fun m hm => ?_
  · have := c.utf8Size_pos
    simp only [Text.size_append, Text.size]
    omega
  · obtain ⟨p', q', hcut, hoffset, hle⟩ := exists_of_mem_marks hm
    refine ⟨hle, fun heq => ?_⟩
    have hafter := congrArg (fun u : Text => u.after (Text.size p)) hcut
    rw [← heq, hoffset] at hafter
    simp only [Text.after_append] at hafter
    rw [← hoffset, heq, Text.after_append] at hafter
    rw [← (List.cons.inj hafter).1]
    exact hc

theorem size_removeSchema_le (h : t.IsBoundary n) :
    Text.size (removeSchema t n) + statementStop t n ≤ Text.size t + n := by
  have hstop := le_statementStop h
  have hline := Text.bounds_lineStart h
  have hle := hline.le
  obtain ⟨a, b, hbounds, ha, hb, heq⟩ := exists_removeSpan
    (show Bounds t (t.lineStart n) (statementStop t n) from
      ⟨by omega, hline.start, isBoundary_statementStop t n⟩)
  have hsize := size_splice_nil hbounds
  rw [removeSchema, heq]
  omega

/-! ## One pass -/

def unused (t : Text) : List (Text × Nat) := Rule.unusedSchemas (blank t)

def removePass (t : Text) : Text := removeSchemas (unused t) t

theorem exists_name_of_mem_unused (h : x ∈ unused t) :
    ∃ p c q, t = p ++ c :: q ∧ x.2 = Text.size p ∧ c ≠ '\n' := by
  obtain ⟨m, hm, g, hg, hx⟩ := exists_of_mem_unusedSchemas h
  have hin := Pattern.in_of_mem_all hm
  obtain ⟨front, back, hcut, hstart, -⟩ := hin.exists_group hg
  have hspells : Pattern.Spells .name g.text := hin.spells_group rfl hg
  obtain ⟨hne, hname⟩ := spells_name hspells
  obtain ⟨c, text, htext⟩ := List.exists_cons_of_ne_nil hne
  have hc : isNameChar c = true := hname c (by rw [htext]; exact List.mem_cons_self)
  have hplain : ∀ d : Char, isNameChar d = false → c ≠ d := by
    rintro d hd rfl
    rw [hd] at hc
    cases hc
  rw [htext, List.append_assoc] at hcut
  obtain ⟨p, q, rfl, hsize⟩ := exists_of_blank (hplain ' ' (by decide)) hcut
  exact ⟨p, c, q, rfl, by rw [← hx, hstart, hsize], hplain '\n' (by decide)⟩

/-- The schemas at the end of the list are removed first, and each removal shortens the text. -/
theorem size_removeSchemas_lt : ∀ (before behind : List (Text × Nat)),
    unused t = before ++ behind → behind ≠ [] →
      Text.size (removeSchemas behind t) < Text.size t
  | _, [], _, hne => absurd rfl hne
  | before, x :: behind, h, _ => by
      have hplace : (removeSchemas behind t).IsBoundary x.2 := (agree_removeSchemas h).right
      have hstop := le_statementStop hplace
      have hle := size_removeSchema_le hplace
      rw [removeSchemas_cons]
      cases behind with
      | nil =>
          obtain ⟨p, c, q, ht, hx, hc⟩ := exists_name_of_mem_unused (t := t) (x := x)
            (h ▸ List.mem_append_right before List.mem_cons_self)
          have hlt : x.2 < statementStop t x.2 := by
            rw [hx, ht]
            exact lt_statementStop hc
          show Text.size (removeSchema t x.2) < Text.size t
          change Text.size (removeSchema t x.2) + statementStop t x.2 ≤ Text.size t + x.2 at hle
          omega
      | cons y behind =>
          have hlt : Text.size (removeSchemas (y :: behind) t) < Text.size t :=
            size_removeSchemas_lt (before ++ [x]) (y :: behind) (by rw [h, List.append_assoc]; rfl)
              (List.cons_ne_nil y behind)
          omega

/-- A pass shortens a text with unused schemas. -/
theorem size_removePass_lt (h : unused t ≠ []) : Text.size (removePass t) < Text.size t :=
  size_removeSchemas_lt [] (unused t) rfl h

theorem removePass_of_nil (h : unused t = []) : removePass t = t := by
  rw [removePass, h]
  rfl

/-! ## Passes one after the other -/

theorem removeSchemaPasses_of_nil (h : unused t = []) : ∀ passes : Nat,
    removeSchemaPasses passes t = t
  | 0 => rfl
  | passes + 1 => by
      have hnil : Rule.unusedSchemas (blank t) = [] := h
      rw [removeSchemaPasses, hnil]

theorem removeSchemaPasses_succ (passes : Nat) (t : Text) :
    removeSchemaPasses (passes + 1) t = removeSchemaPasses passes (removePass t) := by
  by_cases h : unused t = []
  · rw [removePass_of_nil h, removeSchemaPasses_of_nil h, removeSchemaPasses_of_nil h]
  · rw [removeSchemaPasses]
    split
    · next hnil => exact absurd hnil h
    · rfl

/-- The number of passes after which no schema of a text is unused. -/
def cascade (t : Text) : Nat := if h : unused t = [] then 0 else cascade (removePass t) + 1
termination_by Text.size t
decreasing_by exact size_removePass_lt h

theorem cascade_of_nil (h : unused t = []) : cascade t = 0 := by
  rw [cascade, dif_pos h]

theorem cascade_of_ne (h : unused t ≠ []) : cascade t = cascade (removePass t) + 1 := by
  rw [cascade, dif_neg h]

theorem cascade_eq_zero_iff : cascade t = 0 ↔ unused t = [] := by
  by_cases h : unused t = []
  · exact ⟨fun _ => h, fun _ => cascade_of_nil h⟩
  · rw [cascade_of_ne h]
    exact ⟨fun h0 => absurd h0 (Nat.succ_ne_zero _), fun h0 => absurd h0 h⟩

theorem cascade_removePass (t : Text) : cascade (removePass t) = cascade t - 1 := by
  by_cases h : unused t = []
  · rw [removePass_of_nil h, cascade_of_nil h]
  · rw [cascade_of_ne h, Nat.add_sub_cancel]

theorem cascade_removeSchemaPasses : ∀ (passes : Nat) (t : Text),
    cascade (removeSchemaPasses passes t) = cascade t - passes
  | 0, _ => rfl
  | passes + 1, t => by
      rw [removeSchemaPasses_succ, cascade_removeSchemaPasses passes, cascade_removePass,
        Nat.sub_sub, Nat.add_comm]

/-- The cascade is the number of passes that it takes until nothing is unused. -/
theorem unused_removeSchemaPasses_iff {passes : Nat} :
    unused (removeSchemaPasses passes t) = [] ↔ cascade t ≤ passes := by
  rw [← cascade_eq_zero_iff, cascade_removeSchemaPasses, Nat.sub_eq_zero_iff_le]

theorem cascade_le_size (t : Text) : cascade t ≤ Text.size t := by
  induction hn : Text.size t using Nat.strong_induction_on generalizing t with
  | _ n ih =>
      by_cases h : unused t = []
      · rw [cascade_of_nil h]
        exact Nat.zero_le n
      · have hlt := size_removePass_lt h
        have hle := ih _ (hn ▸ hlt) (removePass t) rfl
        rw [cascade_of_ne h]
        omega

/-! ## The removal -/

theorem removeUnusedSchemas_eq_none_iff : removeUnusedSchemas t = none ↔ unused t = [] := by
  rw [removeUnusedSchemas, ← List.length_eq_zero_iff]
  split
  · next hzero => exact ⟨fun _ => hzero, fun _ => rfl⟩
  · next hne => exact ⟨fun h => absurd h (Option.some_ne_none _), fun hzero => absurd hzero hne⟩

theorem eq_of_removeUnusedSchemas {out : Text} (h : removeUnusedSchemas t = some out) :
    out = removeSchemaPasses (unused t).length t := by
  rw [removeUnusedSchemas] at h
  split at h
  · cases h
  · exact (Option.some.inj h).symm

/-- Unused schemas are removed wherever there are any, and passes would come to an end.  The removal
leaves none unused exactly if the cascade is no longer than the number of schemas that are unused at
first, and otherwise the rest of the cascade, which further removals make shorter until nothing is
unused. -/
theorem removeUnusedSchemas_settles (t : Text) :
    (removeUnusedSchemas t = none ↔ unused t = []) ∧
      (cascade t ≤ Text.size t ∧
        ∀ passes, unused (removeSchemaPasses passes t) = [] ↔ cascade t ≤ passes) ∧
      ∀ out, removeUnusedSchemas t = some out →
        (unused out = [] ↔ cascade t ≤ (unused t).length) ∧
          cascade out = cascade t - (unused t).length ∧ cascade out < cascade t := by
  refine ⟨removeUnusedSchemas_eq_none_iff,
    ⟨cascade_le_size t, fun _ => unused_removeSchemaPasses_iff⟩, fun out h => ?_⟩
  have hout : cascade out = cascade t - (unused t).length := by
    rw [eq_of_removeUnusedSchemas h, cascade_removeSchemaPasses]
  have hsome : unused t ≠ [] := fun hnil => by
    rw [removeUnusedSchemas_eq_none_iff.mpr hnil] at h
    cases h
  have hpasses : 0 < (unused t).length := List.length_pos_iff.mpr hsome
  have hlong : cascade t ≠ 0 := fun hzero => hsome (cascade_eq_zero_iff.mp hzero)
  refine ⟨?_, hout, by omega⟩
  rw [eq_of_removeUnusedSchemas h]
  exact unused_removeSchemaPasses_iff

theorem unused_chained : (unused chained).length = 1 ∧ (unused unchained).length = 1 ∧
    removeUnusedSchemas chained = some unchained := by
  decide

theorem not_always_settles :
    ¬ ∀ t out : Text, removeUnusedSchemas t = some out → Rule.unusedSchemas (blank out) = [] := by
  intro h
  obtain ⟨-, hleft, hout⟩ := unused_chained
  have hnil : unused unchained = [] := h chained unchained hout
  rw [hnil] at hleft
  cases hleft

theorem removeUnusedSchemas_settles_chained :
    removeUnusedSchemas chained = some unchained ∧
      (unused unchained = [] ↔ cascade chained ≤ 1) ∧ cascade unchained = cascade chained - 1 := by
  obtain ⟨hone, -, hout⟩ := unused_chained
  obtain ⟨hsettled, hrest, -⟩ := (removeUnusedSchemas_settles chained).2.2 unchained hout
  rw [hone] at hsettled hrest
  exact ⟨hout, hsettled, hrest⟩

end Repair

end ServiceGate
