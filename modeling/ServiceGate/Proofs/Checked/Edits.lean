/-
# Cuts in edits

Cutting out stretches and replacing matches, with every cut checked.  Several edits of one text are
made from the back, each at offsets of the text as it was: those are still places, because an edit
keeps the text in front of it (`foldrM_eq`).

The statement that is cut out ends at a line feed, behind a semicolon or at the end of the text: at
a place that the scan names, or right behind a character of one byte (`isBoundary_stopIn`).
-/
import ServiceGate.Proofs.Checked.Rules
import ServiceGate.Repair.Statements

namespace ServiceGate

open Scan
open Text (Agree Bounds)

variable {α : Type} {t u : Text} {n k start stop : Nat} {p : Pattern} {m : Match}

/-! ## Places that edits name -/

theorem isBoundary_behindIndent (h : t.IsBoundary n) : t.IsBoundary (Repair.behindIndent t n) := by
  obtain ⟨p, q, rfl, rfl⟩ := Text.isBoundary_iff.mp h
  rw [Repair.behindIndent, Text.after_append]
  exact (isBoundary_takeWhile _ _).append p

theorem isBoundary_behindLineEnd? (h : t.IsBoundary n) (hk : Repair.behindLineEnd? t n = some k) :
    t.IsBoundary k := by
  obtain ⟨p, q, rfl, rfl⟩ := Text.isBoundary_iff.mp h
  rw [Repair.behindLineEnd?, Text.after_append] at hk
  split at hk
  · next q =>
      rw [← Option.some.inj hk]
      exact (Text.isBoundary_append ['\r', '\n'] q).append p
  · next q =>
      rw [← Option.some.inj hk]
      exact (Text.isBoundary_append ['\n'] q).append p
  · rw [← Option.some.inj hk]
    exact h
  · cases hk

theorem isBoundary_stopIn : ∀ {ms : List Mark} {depth : Int}, ms ⊆ marks t n →
    t.IsBoundary (Repair.stopIn t depth ms)
  | [], depth, _ => Text.isBoundary_size t
  | m :: ms, depth, h => by
      obtain ⟨hm, hms⟩ := List.cons_subset.mp h
      rw [Repair.stopIn]
      split_ifs with _ _ _ _ _ _ hsemicolon
      · exact isBoundary_stopIn hms
      · exact isBoundary_stopIn hms
      · exact isBoundary_of_mem_marks hm
      · exact isBoundary_stopIn hms
      · exact isBoundary_stopIn hms
      · exact isBoundary_stopIn hms
      · have hchar : m.char = ';' := by
          simp only [Bool.and_eq_true, beq_iff_eq] at hsemicolon
          exact hsemicolon.1
        have hbehind := isBoundary_behind_mark hm
        rw [hchar] at hbehind
        exact hbehind
      · exact isBoundary_stopIn hms

theorem isBoundary_statementStop (t : Text) (n : Nat) : t.IsBoundary (Repair.statementStop t n) :=
  isBoundary_stopIn (List.Subset.refl _)

namespace Checked

/-! ## Single edits -/

/-- The offset behind the blanks and tabs at an offset. -/
def behindIndent (t : Text) (n : Nat) : Except SpanFault Nat := do
  return n + Text.size ((← cutFrom t n).takeWhile Text.isIndent)

/-- The offset behind the line ending at an offset; `none` where a line goes on. -/
def behindLineEnd (t : Text) (n : Nat) : Except SpanFault (Option Nat) := do
  match ← cutFrom t n with
  | '\r' :: '\n' :: _ => return some (n + 2)
  | '\n' :: _ => return some (n + 1)
  | [] => return some n
  | _ => return none

/-- The text without the stretch between two offsets. -/
def removeSpan (t : Text) (start stop : Nat) : Except SpanFault Text := do
  let stop ← behindIndent t stop
  let lineStart ← lineStart t start
  if (Text.trim (← cut t lineStart start)).isEmpty then
    match ← behindLineEnd t stop with
    | some lineStop => splice t lineStart lineStop []
    | none => splice t start stop []
  else splice t start stop []

def replaceMatches (t : Text) (new : Match → Text) (start : Nat) : List Match →
    Except SpanFault Text
  | [] => cutFrom t start
  | m :: rest => do
    let front ← cut t start m.start
    let back ← replaceMatches t new m.stop rest
    return front ++ new m ++ back

/-- Replaces every match of a pattern that starts in code. -/
def replaceInCode (p : Pattern) (new : Match → Text) (t : Text) : Except SpanFault Text :=
  replaceMatches t new 0 (Repair.codeMatches p (.of t))

theorem behindIndent_eq (h : t.IsBoundary n) :
    behindIndent t n = .ok (Repair.behindIndent t n) := by
  rw [behindIndent, cutFrom_eq h]
  rfl

theorem behindLineEnd_eq (h : t.IsBoundary n) :
    behindLineEnd t n = .ok (Repair.behindLineEnd? t n) := by
  rw [behindLineEnd, cutFrom_eq h, ok_bind]
  fun_cases Repair.behindLineEnd? t n <;> simp_all <;> rfl

theorem removeSpan_eq (hstart : t.IsBoundary start) (hstop : t.IsBoundary stop) :
    removeSpan t start stop = .ok (Repair.removeSpan t start stop) ∧
      Agree (t.lineStart start) t (Repair.removeSpan t start stop) := by
  have hline := Text.bounds_lineStart hstart
  have hindent := isBoundary_behindIndent hstop
  have hrest : splice t start (Repair.behindIndent t stop) [] =
        .ok (t.splice start (Repair.behindIndent t stop) []) ∧
      Agree (t.lineStart start) t (t.splice start (Repair.behindIndent t stop) []) :=
    ⟨splice_eq hstart hindent [], (Text.agree_splice hstart _ []).mono hline.start hline.le⟩
  rw [removeSpan, behindIndent_eq hstop, ok_bind, lineStart_eq hstart, ok_bind, cut_eq hline,
    ok_bind, behindLineEnd_eq hindent, Repair.removeSpan]
  split_ifs
  · rw [ok_bind]
    cases hend : Repair.behindLineEnd? t (Repair.behindIndent t stop) with
    | none => exact hrest
    | some lineStop =>
        exact ⟨splice_eq hline.start (isBoundary_behindLineEnd? hindent hend) [],
          Text.agree_splice hline.start lineStop []⟩
  · exact hrest

theorem replaceMatches_eq {new : Match → Text} : ∀ {ms : List Match} {start : Nat},
    t.IsBoundary start → (∀ m ∈ ms, Bounds t m.start m.stop) → (∀ m ∈ ms, start ≤ m.start) →
      ms.Pairwise (fun m m' => m.stop ≤ m'.start) →
        replaceMatches t new start ms = .ok (Repair.replaceMatches t new start ms)
  | [], _, hstart, _, _, _ => cutFrom_eq hstart
  | m :: ms, start, hstart, hbounds, hbehind, horder => by
      obtain ⟨hm, hms⟩ := List.forall_mem_cons.mp hbounds
      obtain ⟨hfirst, horder⟩ := List.pairwise_cons.mp horder
      have hgap : Bounds t start m.start := ⟨hbehind m List.mem_cons_self, hstart, hm.start⟩
      rw [replaceMatches, cut_eq hgap, ok_bind, replaceMatches_eq hm.stop hms hfirst horder]
      rfl

theorem replaceInCode_eq (p : Pattern) (new : Match → Text) (t : Text) :
    replaceInCode p new t = .ok (Repair.replaceInCode p new t) :=
  replaceMatches_eq (Text.isBoundary_zero t)
    (fun _ hm => (Pattern.in_of_mem_all (List.mem_filter.mp hm).1).bounds)
    (fun _ _ => Nat.zero_le _) ((p.pairwise_all t).filter _)

/-! ## Edits from the back -/

/-- Edits at ordered stretches, made from the back, are made at places of the text as it was. -/
theorem foldrM_eq {f : α → Text → Except SpanFault Text} {g : α → Text → Text}
    (startOf stopOf : α → Nat) : ∀ {l : List α},
    (∀ a ∈ l, ∀ u, Agree (stopOf a) t u → f a u = .ok (g a u) ∧ Agree (startOf a) u (g a u)) →
      (∀ a ∈ l, Bounds t (startOf a) (stopOf a)) → l.Pairwise (fun a b => stopOf a ≤ startOf b) →
        l.foldrM f t = .ok (l.foldr g t)
  | [], _, _, _ => rfl
  | a :: l, hedit, hbounds, horder => by
      obtain ⟨ha, hl⟩ := List.forall_mem_cons.mp hedit
      obtain ⟨hb, hbounds⟩ := List.forall_mem_cons.mp hbounds
      obtain ⟨hfirst, horder⟩ := List.pairwise_cons.mp horder
      have hkept := Text.agree_foldr startOf stopOf (fun b hb u h => (hl b hb u h).2) hbounds horder
      rw [List.foldrM_cons, foldrM_eq startOf stopOf hl hbounds horder, ok_bind,
        (ha _ (hkept _ hb.stop hfirst)).1]
      rfl

end Checked

end ServiceGate
