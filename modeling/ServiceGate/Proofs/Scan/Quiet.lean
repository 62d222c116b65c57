/-
# Stretches that the scanner does not leave

A comment ends with a line feed or a slash, a string with a quote or a brace.  A quiet character is
none of them, so of two quiet characters in a row the second one is code only if the first one is
(`isChain_marks`).  Hence a quiet stretch that has a place in code starts in code
(`isCodeAt_of_quiet`).
-/
import Mathlib.Data.List.Chain
import ServiceGate.Proofs.Scan.InCode

namespace ServiceGate.Scan

variable {s : State} {c d : Char} {next : Option Char} {p q t w w' : Text} {n : Nat} {m m' : Mark}

def isQuiet (c : Char) : Bool := isFlat c && !CharClass.isAsciiSpace c

theorem isFlat_of_isQuiet (h : isQuiet c = true) : isFlat c = true := (Bool.and_eq_true _ _ ▸ h).1

theorem isAsciiSpace_of_isQuiet (h : isQuiet c = true) : CharClass.isAsciiSpace c = false := by
  rw [isQuiet, Bool.and_eq_true, Bool.not_eq_true'] at h
  exact h.2

namespace State

/-- A string is one that a quote has opened. -/
def Quoted (s : State) : Prop :=
  match s.mode with
  | .string quote => isQuote quote = true
  | _ => True

theorem quoted_start : start.Quoted := trivial

theorem Quoted.step (hs : s.Quoted) (c : Char) (next : Option Char) :
    (s.step c next).state.Quoted := by
  obtain ⟨mode, regions, last⟩ := s
  cases mode with
  | lineComment =>
      simp only [State.step, stepLineComment]
      split_ifs <;> trivial
  | blockComment =>
      simp only [State.step, stepBlockComment]
      split_ifs <;> trivial
  | string quote =>
      simp only [State.step, stepString]
      split_ifs
      · exact hs
      · trivial
      · trivial
      · exact hs
  | code =>
      simp only [State.step, stepCode]
      split_ifs with h₁ h₂ h₃ h₄ h₅
      · trivial
      · trivial
      · exact h₃
      · cases regions <;> trivial
      · rcases regions with _ | ⟨_ | k, regions⟩
        · trivial
        · exact (by decide : isQuote '\x60' = true)
        · trivial
      · trivial

/-- Behind a quiet character that is no code, the scanner is not in code. -/
theorem mode_ne_code (hs : s.Quoted) (hk : (s.step c next).kind ≠ .code)
    (hone : (s.step c next).takesNext = false → isQuiet c = true)
    (htwo : (s.step c next).takesNext = true → ∀ d ∈ next, isQuiet d = true) :
    (s.step c next).state.mode ≠ .code := by
  obtain ⟨mode, regions, last⟩ := s
  cases mode with
  | lineComment =>
      have hc := isAsciiSpace_of_isQuiet (hone rfl)
      have hline : (c == '\n') = false := beq_eq_false_iff_ne.mpr (by rintro rfl; cases hc)
      simp only [step, stepLineComment, hline, Bool.false_eq_true, if_false]
      exact Mode.noConfusion
  | blockComment =>
      simp only [step, stepBlockComment] at htwo ⊢
      split_ifs at htwo ⊢ with h
      · obtain ⟨-, hnext⟩ := Bool.and_eq_true _ _ ▸ h
        exact absurd (htwo rfl '/' (beq_iff_eq.mp hnext)) (by decide)
      · exact Mode.noConfusion
  | string quote =>
      simp only [step, stepString] at hone htwo ⊢
      split_ifs at hone htwo ⊢ with h₁ h₂ h₃
      · exact Mode.noConfusion
      · obtain rfl := beq_iff_eq.mp h₂
        have hflat := isFlat_of_isQuiet (hone rfl)
        have hquote : isQuote c = true := hs
        simp [isFlat, hquote] at hflat
      · obtain ⟨-, hnext⟩ := Bool.and_eq_true _ _ ▸ h₃
        exact absurd (htwo rfl '\x7b' (beq_iff_eq.mp hnext)) (by decide)
      · exact Mode.noConfusion
  | code =>
      simp only [step, stepCode] at hk hone ⊢
      split_ifs at hk hone ⊢ with h₁ h₂ h₃ h₄ h₅
      · exact Mode.noConfusion
      · exact Mode.noConfusion
      · exact Mode.noConfusion
      · exact absurd (by cases regions <;> rfl) hk
      · rcases regions with _ | ⟨_ | k, regions⟩
        · exact absurd rfl hk
        · exact Mode.noConfusion
        · exact absurd rfl hk
      · exact absurd rfl hk

end State

theorem exists_step_of_head : ∀ {t : Text}, m ∈ (marksFrom s n t).head? →
    ∃ next, m.kind = (s.step m.char next).kind
  | [c], h => ⟨none, by rw [← Option.some.inj h]⟩
  | c :: d :: t, h => by
      refine ⟨some d, ?_⟩
      cases hr : (s.step c (some d)).takesNext with
      | true =>
          rw [marksFrom_two n hr] at h
          rw [← Option.some.inj h]
      | false =>
          rw [marksFrom_one (t := d :: t) n hr] at h
          rw [← Option.some.inj h]
          rfl

/-- What holds of two marks of one token, and of a mark and the one that the next step makes, holds
of any two marks in a row. -/
theorem isChain_of_steps {Inv : State → Prop} {R : Mark → Mark → Prop}
    (hinv : ∀ {s : State} {c : Char} {next : Option Char}, Inv s → Inv (s.step c next).state)
    (htoken : ∀ {m m' : Mark}, m'.kind = m.kind → R m m')
    (hnext : ∀ {s : State} {c : Char} {next next' : Option Char} {m m' : Mark}, Inv s →
      m.kind = (s.step c next).kind → ((s.step c next).takesNext = false → m.char = c) →
      ((s.step c next).takesNext = true → next = some m.char) →
      m'.kind = ((s.step c next).state.step m'.char next').kind → R m m') :
    ∀ (t : Text) {s : State} (n : Nat), Inv s → (marksFrom s n t).IsChain R
  | [], _, _, _ => .nil
  | [_], _, _, _ => .singleton _
  | c :: d :: t, s, n, hs => by
      cases hr : (s.step c (some d)).takesNext with
      | true =>
          rw [marksFrom_two n hr]
          refine .cons_cons (htoken rfl) (List.isChain_cons.mpr ⟨fun m' hm' => ?_,
            isChain_of_steps hinv htoken hnext t _ (hinv hs)⟩)
          obtain ⟨next', hk⟩ := exists_step_of_head hm'
          exact hnext hs rfl (fun h => by rw [h] at hr; cases hr) (fun _ => rfl) hk
      | false =>
          rw [marksFrom_one (t := d :: t) n hr]
          refine List.isChain_cons.mpr ⟨fun m' hm' => ?_,
            isChain_of_steps hinv htoken hnext (d :: t) _ (hinv hs)⟩
          obtain ⟨next', hk⟩ := exists_step_of_head hm'
          exact hnext hs rfl (fun _ => rfl) (fun h => by rw [List.head?_cons, hr] at h; cases h) hk

/-- Of two quiet characters in a row the second one is code only if the first one is. -/
def Follows (m m' : Mark) : Prop :=
  isQuiet m.char = true → isQuiet m'.char = true → m'.kind = .code → m.kind = .code

theorem isChain_marksFrom (t : Text) {s : State} (n : Nat) (hs : s.Quoted) :
    (marksFrom s n t).IsChain Follows := by
  refine isChain_of_steps (fun h => h.step _ _) (fun hk _ _ hm' => hk ▸ hm') ?_ t n hs
  intro s c next next' m m' hs hk hone htwo hk' hm _ hcode
  by_contra hne
  -- the next step starts outside of code, so what it reads is no code
  refine State.mode_ne_code hs (hk ▸ hne) (fun h => hone h ▸ hm) (fun h x hx => ?_)
    (State.of_step_code (hk' ▸ hcode)).1
  rw [htwo h] at hx
  rwa [← Option.some.inj hx]

theorem isChain_marks (t : Text) : (marks t 0).IsChain Follows :=
  isChain_marksFrom _ 0 State.quoted_start

/-- In a quiet stretch everything in front of code is code. -/
theorem kind_of_quiet : ∀ {ms : List Mark}, (ms ++ [m]).IsChain Follows →
    (∀ x ∈ ms, isQuiet x.char = true) → isQuiet m.char = true → m.kind = .code →
      ∀ x ∈ ms, x.kind = .code
  | [], _, _, _, _, _, hx => absurd hx List.not_mem_nil
  | x :: ms, hchain, hquiet, hm, hk, y, hy => by
      obtain ⟨hx, hms⟩ := List.forall_mem_cons.mp hquiet
      rw [List.cons_append] at hchain
      obtain ⟨hhead, htail⟩ := List.isChain_cons.mp hchain
      have hkind := kind_of_quiet htail hms hm hk
      rcases List.mem_cons.mp hy with rfl | hy
      · cases ms with
        | nil => exact hhead m rfl hx hm hk
        | cons z ms =>
            exact hhead z rfl hx (hms z List.mem_cons_self) (hkind z List.mem_cons_self)
      · exact hkind y hy

/-- A quiet stretch with a place in code starts in code. -/
theorem isCodeAt_of_quiet (hw : ∀ x ∈ c :: w ++ [d], isQuiet x = true)
    (h : isCodeAt (p ++ (c :: w ++ d :: q)) (blank (p ++ (c :: w ++ d :: q)))
      (Text.size (p ++ c :: w)) = true) :
    isCodeAt (p ++ (c :: w ++ d :: q)) (blank (p ++ (c :: w ++ d :: q))) (Text.size p) = true := by
  have hcut : p ++ (c :: w ++ d :: q) = (p ++ c :: w) ++ d :: q := by simp
  have hcut' : p ++ (c :: w ++ d :: q) = p ++ c :: (w ++ d :: q) := by simp
  have hchain := isChain_marks (p ++ (c :: w ++ d :: q))
  obtain ⟨ms, ms', hmarks, hms⟩ := exists_code_mark (hcut ▸ h)
  obtain ⟨msp, msw, rfl, hp, hmsw⟩ := List.map_eq_append_iff.mp hms
  cases msw with
  | nil => cases hmsw
  | cons m msw =>
      obtain ⟨hm, hmsw⟩ := List.cons.inj hmsw
      rw [← hcut] at hmarks
      have hquiet : ∀ x ∈ m :: msw, isQuiet x.char = true := fun x hx =>
        hw _ (List.mem_append_left _ (by
          rw [← hm, ← hmsw, ← List.map_cons]
          exact List.mem_map_of_mem hx))
      have hmiddle : m :: msw ++ [⟨Text.size (p ++ c :: w), d, .code⟩] <:+:
          marks (p ++ (c :: w ++ d :: q)) 0 := ⟨msp, ms', by rw [hmarks]; simp⟩
      have hmiddle := List.IsChain.infix hchain hmiddle
      have hkind := kind_of_quiet hmiddle hquiet
        (hw d (List.mem_append_right _ (List.mem_singleton_self d))) rfl m List.mem_cons_self
      obtain ⟨msp', k, ms'', hmarks', hp'⟩ := exists_marks_cut p c (w ++ d :: q)
      have hsame := hmarks
      rw [hcut', hmarks', List.append_assoc] at hsame
      obtain ⟨rfl, hrest⟩ := List.append_inj hsame (by
        rw [← List.length_map (·.char), hp', ← hp, List.length_map])
      obtain ⟨rfl, -⟩ := List.cons.inj hrest
      obtain rfl : k = .code := hkind
      rw [hcut']
      exact isCodeAt_of_mark (isAsciiSpace_of_isQuiet (hw c List.mem_cons_self)) hmarks' hp'

end ServiceGate.Scan
