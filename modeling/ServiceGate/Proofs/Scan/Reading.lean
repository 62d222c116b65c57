/-
# Reading a text piece by piece

`Reads rest s n t ms s'` is the scanner's run over `t` with what follows it, `rest`, in sight: from
state `s` at offset `n` it gives the marks `ms` and ends in `s'` between `t` and `rest`.  Runs are
put together by `Reads.append`, and a run tells `marksFrom` and `State.after` of the whole text.

No step reads the quote that was entered last; two states that differ in it alone (`Agrees`) give
the same marks.
-/
import Mathlib.Tactic.SplitIfs
import ServiceGate.Proofs.Text.Bounds
import ServiceGate.Scan.Mark

namespace ServiceGate.Scan

/-! ## What a step in code can do -/

def isQuote (c : Char) : Bool := c == '\'' || c == '"' || c == '\x60'

/-- Whether a sign opens a comment in front of `next`. -/
def opensComment (c : Char) (next : Option Char) : Bool :=
  c == '/' && (next == some '/' || next == some '*')

namespace State

variable {s s' : State} {c : Char} {next : Option Char}

theorem of_step_code (h : (s.step c next).kind = .code) :
    s.mode = .code ∧ isQuote c = false ∧ opensComment c next = false ∧
      (s.step c next).takesNext = false := by
  obtain ⟨mode, regions, last⟩ := s
  cases mode with
  | lineComment => cases h
  | blockComment =>
      simp only [step, stepBlockComment] at h
      split_ifs at h
  | string quote =>
      simp only [step, stepString] at h
      split_ifs at h
  | code =>
      simp only [step, stepCode] at h ⊢
      split_ifs at h ⊢ with h₁ h₂ h₃ h₄ h₅
      · cases regions <;> simp_all [isQuote, opensComment, stepOpenBrace]
      · cases regions with
        | nil => simp_all [isQuote, opensComment, stepCloseBrace]
        | cons d regions => cases d <;> simp_all [isQuote, opensComment, stepCloseBrace]
      · simp_all [isQuote, opensComment]

theorem step_plain (hm : s.mode = .code) (hr : s.regions = []) (hq : isQuote c = false)
    (hc : opensComment c next = false) : s.step c next = ⟨.code, s, false⟩ := by
  obtain ⟨mode, regions, last⟩ := s
  simp only at hm hr
  subst hm hr
  simp only [isQuote, opensComment, Bool.or_eq_false_iff, Bool.and_eq_false_iff] at hq hc
  simp only [step, stepCode, stepOpenBrace, stepCloseBrace]
  split_ifs <;> simp_all

/-- Two states that differ at most in the quote that was entered last. -/
def Agrees (s s' : State) : Prop := s.mode = s'.mode ∧ s.regions = s'.regions

theorem step_first (hs : s.Agrees .start) (hc : opensComment c next = false) :
    (s.step c next).kind ≠ .comment ∧ (s.step c next).takesNext = false := by
  obtain ⟨mode, regions, last⟩ := s
  obtain ⟨hm, hr⟩ := hs
  simp only [start] at hm hr
  subst hm hr
  simp only [opensComment, Bool.and_eq_false_iff, Bool.or_eq_false_iff] at hc
  simp only [step, stepCode, stepOpenBrace, stepCloseBrace]
  split_ifs <;> simp_all

theorem step_agrees (h : s.Agrees s') (c : Char) (next : Option Char) :
    (s'.step c next).kind = (s.step c next).kind ∧
      (s'.step c next).takesNext = (s.step c next).takesNext ∧
      (s.step c next).state.Agrees (s'.step c next).state := by
  obtain ⟨mode, regions, last⟩ := s
  obtain ⟨mode', regions', last'⟩ := s'
  obtain ⟨hm, hr⟩ := h
  simp only at hm hr
  subst hm hr
  cases mode with
  | lineComment =>
      by_cases hc : c = '\n' <;> simp [step, stepLineComment, Agrees, hc]
  | blockComment =>
      simp only [step, stepBlockComment]
      split_ifs <;> exact ⟨rfl, rfl, rfl, rfl⟩
  | string quote =>
      simp only [step, stepString]
      split_ifs <;> exact ⟨rfl, rfl, rfl, rfl⟩
  | code =>
      simp only [step, stepCode, stepOpenBrace, stepCloseBrace, enterString]
      split_ifs
      · exact ⟨rfl, rfl, rfl, rfl⟩
      · exact ⟨rfl, rfl, rfl, rfl⟩
      · exact ⟨rfl, rfl, rfl, rfl⟩
      · cases regions <;> exact ⟨rfl, rfl, rfl, rfl⟩
      · cases regions with
        | nil => exact ⟨rfl, rfl, rfl, rfl⟩
        | cons d regions => cases d <;> exact ⟨rfl, rfl, rfl, rfl⟩
      · exact ⟨rfl, rfl, rfl, rfl⟩

end State

/-! ## One step of a whole run -/

section Step
variable {s : State} {c d : Char} {t : Text}

theorem marksFrom_one (n : Nat) (h : (s.step c t.head?).takesNext = false) :
    marksFrom s n (c :: t) = ⟨n, c, (s.step c t.head?).kind⟩ ::
      marksFrom (s.step c t.head?).state (n + c.utf8Size) t := by
  cases t with
  | nil => rfl
  | cons d t =>
      simp only [List.head?_cons] at h ⊢
      rw [marksFrom]
      simp only [h, Bool.false_eq_true, if_false]

theorem marksFrom_two (n : Nat) (h : (s.step c (some d)).takesNext = true) :
    marksFrom s n (c :: d :: t) = ⟨n, c, (s.step c (some d)).kind⟩ ::
      ⟨n + c.utf8Size, d, (s.step c (some d)).kind⟩ ::
      marksFrom (s.step c (some d)).state (n + c.utf8Size + d.utf8Size) t := by
  rw [marksFrom]
  simp only [h, if_true]

theorem State.after_one (h : (s.step c t.head?).takesNext = false) :
    s.after (c :: t) = (s.step c t.head?).state.after t := by
  cases t with
  | nil => rfl
  | cons d t =>
      simp only [List.head?_cons] at h ⊢
      rw [State.after]
      simp only [h, Bool.false_eq_true, if_false]

theorem State.after_two (h : (s.step c (some d)).takesNext = true) :
    s.after (c :: d :: t) = (s.step c (some d)).state.after t := by
  rw [State.after]
  simp only [h, if_true]

end Step

theorem marksFrom_agrees :
    ∀ (t : Text) (n : Nat) {s s' : State}, s.Agrees s' → marksFrom s' n t = marksFrom s n t
  | [], _, _, _, _ => rfl
  | [c], n, s, s', h => by rw [marksFrom, marksFrom, (State.step_agrees h c none).1]
  | c :: d :: t, n, s, s', h => by
      obtain ⟨hk, ht, hs⟩ := State.step_agrees h c (some d)
      cases hr : (s.step c (some d)).takesNext with
      | true =>
          rw [marksFrom_two n (ht.trans hr), marksFrom_two n hr, hk, marksFrom_agrees t _ hs]
      | false =>
          rw [marksFrom_one n (t := d :: t) (ht.trans hr), marksFrom_one n (t := d :: t) hr]
          rw [List.head?_cons, hk, marksFrom_agrees (d :: t) _ hs]

theorem marks_zero (t : Text) : marks t 0 = marksFrom .start 0 t := by
  rw [marks, Text.after, Text.after?_zero]
  rfl

/-! ## The code among the marks -/

/-- Offsets and characters of the marks that are code. -/
def codeOf (ms : List Mark) : List (Nat × Char) :=
  ms.filterMap fun m => if m.kind = .code then some (m.offset, m.char) else none

theorem codeChars_eq (t : Text) (n : Nat) : codeChars t n = codeOf (marks t n) := rfl

@[simp]
theorem codeOf_nil : codeOf [] = [] := rfl

@[simp]
theorem codeOf_append (ms ms' : List Mark) : codeOf (ms ++ ms') = codeOf ms ++ codeOf ms' :=
  List.filterMap_append

@[simp]
theorem codeOf_cons_code (n : Nat) (c : Char) (ms : List Mark) :
    codeOf (⟨n, c, .code⟩ :: ms) = (n, c) :: codeOf ms := rfl

@[simp]
theorem codeOf_cons_literal (n : Nat) (c : Char) (ms : List Mark) :
    codeOf (⟨n, c, .literal⟩ :: ms) = codeOf ms := rfl

@[simp]
theorem codeOf_cons_comment (n : Nat) (c : Char) (ms : List Mark) :
    codeOf (⟨n, c, .comment⟩ :: ms) = codeOf ms := rfl

/-! ## Runs over a part of a text -/

/-- With `rest` behind it, `t` at offset `n` is read from `s` as `ms`, up to the state `s'`.  No
token goes over from `t` into `rest`. -/
inductive Reads (rest : Text) : State → Nat → Text → List Mark → State → Prop
  | nil {s : State} {n : Nat} : Reads rest s n [] [] s
  | one {s s' s'' : State} {n : Nat} {c : Char} {t : Text} {k : Kind} {ms : List Mark} :
      s.step c (t ++ rest).head? = ⟨k, s', false⟩ →
      Reads rest s' (n + c.utf8Size) t ms s'' →
      Reads rest s n (c :: t) (⟨n, c, k⟩ :: ms) s''
  | two {s s' s'' : State} {n : Nat} {c d : Char} {t : Text} {k : Kind} {ms : List Mark} :
      s.step c (some d) = ⟨k, s', true⟩ →
      Reads rest s' (n + c.utf8Size + d.utf8Size) t ms s'' →
      Reads rest s n (c :: d :: t) (⟨n, c, k⟩ :: ⟨n + c.utf8Size, d, k⟩ :: ms) s''

namespace Reads

variable {rest t u : Text} {s s' s'' : State} {n : Nat} {ms ms' : List Mark}

theorem append (h : Reads (u ++ rest) s n t ms s')
    (h' : Reads rest s' (n + Text.size t) u ms' s'') :
    Reads rest s n (t ++ u) (ms ++ ms') s'' := by
  induction h with
  | nil => exact h'
  | one hstep _ ih =>
      refine .one (by rw [← hstep, ← List.append_assoc]; rfl) (ih ?_)
      simpa only [Text.size, Nat.add_assoc] using h'
  | two hstep _ ih =>
      refine .two hstep (ih ?_)
      simpa only [Text.size, Nat.add_assoc] using h'

theorem marksFrom_eq (h : Reads rest s n t ms s') :
    marksFrom s n (t ++ rest) = ms ++ marksFrom s' (n + Text.size t) rest := by
  induction h with
  | nil => simp [Text.size]
  | one hstep _ ih =>
      rw [List.cons_append, marksFrom_one _ (by rw [hstep]), hstep, ih]
      simp only [Text.size, Nat.add_assoc, List.cons_append]
  | two hstep _ ih =>
      rw [List.cons_append, List.cons_append, marksFrom_two _ (by rw [hstep]), hstep, ih]
      simp only [Text.size, Nat.add_assoc, List.cons_append]

theorem map_char (h : Reads rest s n t ms s') : ms.map (·.char) = t := by
  induction h with
  | nil => rfl
  | one _ _ ih => rw [List.map_cons, ih]
  | two _ _ ih => rw [List.map_cons, List.map_cons, ih]

theorem after_eq (h : Reads rest s n t ms s') : s.after (t ++ rest) = s'.after rest := by
  induction h with
  | nil => rfl
  | one hstep _ ih => rw [List.cons_append, State.after_one (by rw [hstep]), hstep, ih]
  | two hstep _ ih =>
      rw [List.cons_append, List.cons_append, State.after_two (by rw [hstep]), hstep, ih]

end Reads

end ServiceGate.Scan
