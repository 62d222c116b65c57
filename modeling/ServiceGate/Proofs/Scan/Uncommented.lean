/-
# The text without its comments

`uncomment` overwrites comments with spaces, byte for byte, and keeps every line feed.  Where the
scan of the text sees a comment, the scan of what is left sees code, and everything else it sees as
before (`marks_uncomment`): a comment is opened in code and leaves the scanner in code, with the
same regions open.  So the same of both texts is code (`blank_uncomment`, `isCodeAt_uncomment`).

The step of the scan that opens a comment takes two characters, so the two scans are compared from a
state that is `uncommented`, in which a comment is code with the same regions, and the marks on the
one side are `spread` into those on the other.
-/
import ServiceGate.Proofs.Scan.Quiet
import ServiceGate.Proofs.Scan.Stretches

namespace ServiceGate.Scan

variable {s : State} {c : Char} {next : Option Char} {n : Nat} {t p q w : Text} {m : Mark}
  {ms : List Mark}

def Mark.uncomment (m : Mark) : Text :=
  if m.kind = .comment ∧ m.char ≠ '\n' then List.replicate m.char.utf8Size ' ' else [m.char]

def uncomment (t : Text) : Text := (marks t 0).flatMap Mark.uncomment

/-- The marks of what is left of a marked character: what was a comment is code. -/
def Mark.spread (m : Mark) : List Mark :=
  if m.kind = .comment then (m.uncomment.indexed m.offset).map fun x => ⟨x.1, x.2, .code⟩ else [m]

def State.uncommented (s : State) : State :=
  match s.mode with
  | .lineComment | .blockComment => { s with mode := .code }
  | .code | .string _ => s

theorem Mark.uncomment_of_ne (h : m.kind ≠ .comment) : m.uncomment = [m.char] :=
  if_neg fun hc => h hc.1

theorem Mark.spread_of_ne (h : m.kind ≠ .comment) : m.spread = [m] := if_neg h

theorem size_markUncomment (m : Mark) : Text.size m.uncomment = m.char.utf8Size := by
  unfold Mark.uncomment
  split_ifs
  · exact size_blanks _
  · rfl

theorem size_flatMap_uncomment (ms : List Mark) :
    Text.size (ms.flatMap Mark.uncomment) = Text.size (ms.map (·.char)) := by
  induction ms with
  | nil => rfl
  | cons m ms ih =>
      rw [List.flatMap_cons, Text.size_append, size_markUncomment, ih, List.map_cons, Text.size]

theorem flatMap_uncomment_of_ne (h : ∀ m ∈ ms, m.kind ≠ .comment) :
    ms.flatMap Mark.uncomment = ms.map (·.char) := by
  induction ms with
  | nil => rfl
  | cons m ms ih =>
      obtain ⟨hm, hms⟩ := List.forall_mem_cons.mp h
      rw [List.flatMap_cons, Mark.uncomment_of_ne hm, ih hms]
      rfl

theorem eq_of_mem_uncomment (hk : m.kind = .comment) (h : c ∈ m.uncomment) : c = ' ' ∨
    c = '\n' := by
  unfold Mark.uncomment at h
  split_ifs at h with hc
  · exact .inl (List.eq_of_mem_replicate h)
  · have hline : m.char = '\n' := not_not.mp fun hn => hc ⟨hk, hn⟩
    exact .inr ((List.mem_singleton.mp h).trans hline)

theorem isFlat_of_mem_uncomment (hk : m.kind = .comment) (h : c ∈ m.uncomment) :
    isFlat c = true := by
  rcases eq_of_mem_uncomment hk h with rfl | rfl <;> rfl

theorem of_mem_spread {x : Mark} (hk : m.kind = .comment) (h : x ∈ m.spread) :
    m.offset ≤ x.offset ∧ x.offset < m.offset + m.char.utf8Size ∧ x.kind = .code ∧
      (x.char = ' ' ∨ x.char = '\n') := by
  rw [Mark.spread, if_pos hk] at h
  obtain ⟨⟨o, c⟩, hmem, rfl⟩ := List.mem_map.mp h
  obtain ⟨u, v, hcut, ho⟩ := Text.exists_of_mem_indexed hmem
  have hsize := congrArg Text.size hcut
  simp only at ho hsize
  rw [size_markUncomment, Text.size_append, Text.size] at hsize
  have hc : c ∈ m.uncomment := by
    rw [hcut]
    exact List.mem_append_right _ List.mem_cons_self
  have hpos := c.utf8Size_pos
  exact ⟨Text.le_of_mem_indexed hmem, by simp only; omega, rfl, eq_of_mem_uncomment hk hc⟩

theorem exists_spread_cons (hk : m.kind = .comment) :
    ∃ c xs, m.spread = ⟨m.offset, c, .code⟩ :: xs := by
  rw [Mark.spread, if_pos hk]
  cases hw : m.uncomment with
  | nil =>
      have hsize := size_markUncomment m
      rw [hw] at hsize
      exact absurd hsize.symm (Nat.ne_of_gt m.char.utf8Size_pos)
  | cons c w => exact ⟨c, _, rfl⟩

/-! ## One step -/

namespace State

theorem takesNext_none (s : State) (c : Char) : (s.step c none).takesNext = false := by
  obtain ⟨mode, regions, last⟩ := s
  cases mode with
  | lineComment => rfl
  | blockComment =>
      simp only [step, stepBlockComment]
      split_ifs with h
      · simp at h
      · rfl
  | string quote =>
      simp only [step, stepString]
      split_ifs with h₁ h₂ h₃
      · rfl
      · rfl
      · simp at h₃
      · rfl
  | code =>
      simp only [step, stepCode]
      split_ifs with h₁ h₂ h₃ h₄ h₅
      · simp at h₁
      · simp at h₂
      · rfl
      · cases regions <;> rfl
      · rcases regions with _ | ⟨_ | k, regions⟩ <;> rfl
      · rfl

theorem of_step_comment (h : (s.step c next).kind = .comment) :
    s.uncommented.mode = .code ∧ (s.step c next).state.uncommented = s.uncommented := by
  obtain ⟨mode, regions, last⟩ := s
  cases mode with
  | lineComment =>
      refine ⟨rfl, ?_⟩
      simp only [step, stepLineComment]
      split_ifs <;> rfl
  | blockComment =>
      refine ⟨rfl, ?_⟩
      simp only [step, stepBlockComment]
      split_ifs <;> rfl
  | string quote =>
      simp only [step, stepString] at h
      split_ifs at h
  | code =>
      simp only [step, stepCode] at h ⊢
      split_ifs at h ⊢ with h₁ h₂ h₃ h₄ h₅
      · exact ⟨rfl, rfl⟩
      · exact ⟨rfl, rfl⟩
      · cases regions <;> cases h
      · rcases regions with _ | ⟨_ | k, regions⟩ <;> cases h

theorem of_step_ne_comment (h : (s.step c next).kind ≠ .comment) :
    s.uncommented = s ∧ (s.step c next).state.uncommented = (s.step c next).state := by
  obtain ⟨mode, regions, last⟩ := s
  cases mode with
  | lineComment => exact absurd rfl h
  | blockComment =>
      simp only [step, stepBlockComment] at h
      split_ifs at h <;> exact absurd rfl h
  | string quote =>
      simp only [step, stepString]
      split_ifs <;> exact ⟨rfl, rfl⟩
  | code =>
      simp only [step, stepCode] at h ⊢
      split_ifs at h ⊢ with h₁ h₂ h₃ h₄ h₅
      · exact absurd rfl h
      · exact absurd rfl h
      · exact ⟨rfl, rfl⟩
      · cases regions <;> exact ⟨rfl, rfl⟩
      · rcases regions with _ | ⟨_ | k, regions⟩ <;> exact ⟨rfl, rfl⟩
      · exact ⟨rfl, rfl⟩

theorem opens_of_step_comment (hs : s.uncommented = s) (h : (s.step c next).kind = .comment) :
    s.mode = .code ∧ c = '/' := by
  obtain ⟨mode, regions, last⟩ := s
  cases mode with
  | lineComment | blockComment => cases hs
  | string quote =>
      simp only [step, stepString] at h
      split_ifs at h
  | code =>
      simp only [step, stepCode] at h
      split_ifs at h with h₁ h₂ h₃ h₄ h₅
      · simp only [Bool.and_eq_true, beq_iff_eq] at h₁
        exact ⟨rfl, h₁.1⟩
      · simp only [Bool.and_eq_true, beq_iff_eq] at h₂
        exact ⟨rfl, h₂.1⟩
      · cases regions <;> cases h
      · rcases regions with _ | ⟨_ | k, regions⟩ <;> cases h

theorem step_blank (h : (s.step c (some '/')).kind ≠ .comment) :
    s.step c (some ' ') = s.step c (some '/') := by
  obtain ⟨mode, regions, last⟩ := s
  cases mode with
  | lineComment => rfl
  | blockComment =>
      simp only [step, stepBlockComment] at h
      split_ifs at h <;> exact absurd rfl h
  | string quote => rfl
  | code =>
      simp only [step, stepCode] at h ⊢
      by_cases hc : c = '/'
      · subst hc
        exact absurd rfl h
      · simp [hc]

end State

/-! ## Whole scans -/

/-- Flat text that starts in code is read as code. -/
theorem marksFrom_flat (hs : s.mode = .code) (rest : Text) : ∀ (w : Text) (n : Nat),
    (∀ c ∈ w, isFlat c = true) → marksFrom s n (w ++ rest) =
      ((w.indexed n).map fun x => ⟨x.1, x.2, .code⟩) ++ marksFrom s (n + Text.size w) rest
  | [], _, _ => rfl
  | c :: w, n, hw => by
      obtain ⟨hc, hw⟩ := List.forall_mem_cons.mp hw
      have hstep := step_flat hc hs (w ++ rest).head?
      rw [List.cons_append, marksFrom_one n (by rw [hstep]), hstep, marksFrom_flat hs rest w _ hw,
        Text.indexed, List.map_cons, Text.size, Nat.add_assoc, List.cons_append]

theorem marksFrom_uncomment_comment (hs : s.mode = .code) (hk : m.kind = .comment) (rest : Text) :
    marksFrom s m.offset (m.uncomment ++ rest) =
      m.spread ++ marksFrom s (m.offset + m.char.utf8Size) rest := by
  rw [marksFrom_flat hs rest _ _ fun c hc => isFlat_of_mem_uncomment hk hc, size_markUncomment,
    Mark.spread, if_pos hk]

theorem exists_marksFrom_cons (s : State) (n : Nat) (c : Char) : ∀ t : Text,
    ∃ ms, marksFrom s n (c :: t) = ⟨n, c, (s.step c t.head?).kind⟩ :: ms
  | [] => ⟨_, rfl⟩
  | d :: t => by
      cases hr : (s.step c (some d)).takesNext with
      | true => exact ⟨_, marksFrom_two n hr⟩
      | false => exact ⟨_, marksFrom_one (t := d :: t) n hr⟩

/-- Outside of comments the text that is left begins as the text does, or with a blank for a slash.
-/
theorem head?_uncomment (hs : s.uncommented = s) (n : Nat) : ∀ (t : Text),
    ((marksFrom s n t).flatMap Mark.uncomment).head? = t.head? ∨
      t.head? = some '/' ∧ ((marksFrom s n t).flatMap Mark.uncomment).head? = some ' '
  | [] => .inl rfl
  | d :: t => by
      obtain ⟨ms, hms⟩ := exists_marksFrom_cons s n d t
      rw [hms, List.flatMap_cons]
      by_cases hk : (s.step d t.head?).kind = .comment
      · obtain ⟨-, rfl⟩ := State.opens_of_step_comment hs hk
        refine .inr ⟨rfl, ?_⟩
        have hslash : ('/' : Char) ≠ '\n' := by decide
        rw [Mark.uncomment, if_pos ⟨hk, hslash⟩]
        rfl
      · rw [Mark.uncomment_of_ne hk]
        exact .inl rfl

theorem step_uncomment (hk : (s.step c t.head?).kind ≠ .comment) (n : Nat) :
    s.step c ((marksFrom (s.step c t.head?).state n t).flatMap Mark.uncomment).head? =
      s.step c t.head? := by
  rcases head?_uncomment (State.of_step_ne_comment hk).2 n t with hhead | ⟨hslash, hblank⟩
  · rw [hhead]
  · rw [hblank, hslash]
    exact State.step_blank (hslash ▸ hk)

/-- A token of one character, in front of what is left of the rest. -/
theorem marksFrom_uncomment_one (h : (s.step c t.head?).takesNext = false)
    (ih : marksFrom (s.step c t.head?).state.uncommented (n + c.utf8Size)
      ((marksFrom (s.step c t.head?).state (n + c.utf8Size) t).flatMap Mark.uncomment) =
        (marksFrom (s.step c t.head?).state (n + c.utf8Size) t).flatMap Mark.spread) :
    marksFrom s.uncommented n ((marksFrom s n (c :: t)).flatMap Mark.uncomment) =
      (marksFrom s n (c :: t)).flatMap Mark.spread := by
  rw [marksFrom_one n h, List.flatMap_cons, List.flatMap_cons, ← ih]
  by_cases hk : (s.step c t.head?).kind = .comment
  · obtain ⟨hmode, hstate⟩ := State.of_step_comment hk
    rw [hstate]
    exact marksFrom_uncomment_comment (m := ⟨n, c, _⟩) hmode hk _
  · obtain ⟨hs, hstate⟩ := State.of_step_ne_comment hk
    have hstep := step_uncomment hk (n + c.utf8Size)
    rw [Mark.uncomment_of_ne hk, Mark.spread_of_ne hk, hs, List.singleton_append,
      marksFrom_one n (by rw [hstep, h]), hstep, hstate]
    rfl

/-- What is left of a text is scanned like the text, with code in the place of comments. -/
theorem marksFrom_uncomment : ∀ (t : Text) (s : State) (n : Nat),
    marksFrom s.uncommented n ((marksFrom s n t).flatMap Mark.uncomment) =
      (marksFrom s n t).flatMap Mark.spread
  | [], _, _ => rfl
  | [c], s, n => marksFrom_uncomment_one (t := []) (s.takesNext_none c) rfl
  | c :: d :: t, s, n => by
      cases hr : (s.step c (some d)).takesNext with
      | false =>
          exact marksFrom_uncomment_one (t := d :: t) hr (marksFrom_uncomment (d :: t) _ _)
      | true =>
          have ih := marksFrom_uncomment t (s.step c (some d)).state (n + c.utf8Size + d.utf8Size)
          rw [marksFrom_two n hr]
          simp only [List.flatMap_cons]
          rw [← ih]
          by_cases hk : (s.step c (some d)).kind = .comment
          · obtain ⟨hmode, hstate⟩ := State.of_step_comment hk
            rw [marksFrom_uncomment_comment (m := ⟨n, c, _⟩) hmode hk,
              marksFrom_uncomment_comment (m := ⟨n + c.utf8Size, d, _⟩) hmode hk, hstate]
          · obtain ⟨hs, hstate⟩ := State.of_step_ne_comment hk
            rw [Mark.uncomment_of_ne hk, Mark.uncomment_of_ne hk, Mark.spread_of_ne hk,
              Mark.spread_of_ne hk, hs, hstate]
            simp only [List.singleton_append]
            rw [marksFrom_two n hr]

theorem marks_uncomment (t : Text) : marks (uncomment t) 0 = (marks t 0).flatMap Mark.spread := by
  rw [marks_zero, uncomment, marks_zero]
  exact marksFrom_uncomment t .start 0

/-! ## The end of a comment -/

/-- A comment that ends does so with a line feed or with a slash. -/
theorem State.of_end_of_comment (hk : (s.step c next).kind = .comment)
    (hs : (s.step c next).state.uncommented = (s.step c next).state) :
    (s.step c next).takesNext = false ∧ c = '\n' ∨
      (s.step c next).takesNext = true ∧ next = some '/' := by
  obtain ⟨mode, regions, last⟩ := s
  cases mode with
  | lineComment =>
      refine .inl ⟨rfl, ?_⟩
      simp only [step, stepLineComment] at hs
      split_ifs at hs with h
      · exact beq_iff_eq.mp h
      · cases hs
  | blockComment =>
      simp only [step, stepBlockComment] at hs ⊢
      split_ifs at hs ⊢ with h
      · exact .inr ⟨rfl, beq_iff_eq.mp (Bool.and_eq_true _ _ ▸ h).2⟩
      · cases hs
  | string quote =>
      simp only [step, stepString] at hk
      split_ifs at hk
  | code =>
      simp only [step, stepCode] at hk hs
      split_ifs at hk hs with h₁ h₂ h₃ h₄ h₅
      · cases hs
      · cases hs
      · cases regions <;> cases hk
      · rcases regions with _ | ⟨_ | k, regions⟩ <;> cases hk

/-- Where two marks in a row are the last one of a comment and one behind it. -/
def EndsComment (m m' : Mark) : Prop :=
  m.kind = .comment → m'.kind ≠ .comment → m.char = '/' ∨ m.char = '\n'

theorem isChain_endsComment (t : Text) : (marks t 0).IsChain EndsComment := by
  refine @isChain_of_steps (fun _ => True) EndsComment (fun _ => trivial)
    (fun hk h hne => ?_) ?_ _ _ 0
    trivial
  · exact absurd (hk.trans h) hne
  · intro s c next next' m m' _ hk hone htwo hk' hm hm'
    have hs := (State.of_step_ne_comment (hk' ▸ hm')).1
    rcases State.of_end_of_comment (hk ▸ hm) hs with ⟨hfalse, hc⟩ | ⟨htrue, hnext⟩
    · exact .inr ((hone hfalse).trans hc)
    · exact .inl (Option.some.inj ((htwo htrue).symm.trans hnext))

/-! ## The code that is left -/

theorem flatMap_blank_spread (m : Mark) : m.spread.flatMap Mark.blank = m.blank := by
  by_cases hk : m.kind = .comment
  · have hcode : ∀ (w : Text) (n : Nat),
        ((w.indexed n).map fun x => (⟨x.1, x.2, .code⟩ : Mark)).flatMap Mark.blank = w := by
      intro w
      induction w with
      | nil => exact fun _ => rfl
      | cons c w ih => exact fun n => congrArg (c :: ·) (ih _)
    rw [Mark.spread, if_pos hk, hcode, Mark.uncomment, Mark.blank, hk]
    by_cases hline : m.char = '\n'
    · simp [hline]
    · simp [hline]
  · rw [Mark.spread_of_ne hk, List.flatMap_cons, List.flatMap_nil, List.append_nil]

theorem blank_uncomment (t : Text) : blank (uncomment t) = blank t := by
  rw [blank, marks_uncomment, List.flatMap_assoc, blank]
  exact congrArg (List.flatMap · (marks t 0)) (funext flatMap_blank_spread)

/-- In front of the end of a row of blanks and line feeds every byte is white space. -/
theorem isAsciiSpace_of_byteAt? {b : UInt8} : ∀ {w : Text} {n : Nat} (rest : Text),
    (∀ c ∈ w, c = ' ' ∨ c = '\n') → n < Text.size w → Text.byteAt? (w ++ rest) n = some b →
      CharClass.isAsciiSpace (Char.ofNat b.toNat) = true
  | [], _, _, _, hn, _ => absurd hn (Nat.not_lt_zero _)
  | c :: w, n, rest, hw, hn, h => by
      obtain ⟨hc, hw⟩ := List.forall_mem_cons.mp hw
      have hsize : c.utf8Size = 1 := by rcases hc with rfl | rfl <;> rfl
      rw [List.cons_append, Text.byteAt?, hsize] at h
      cases n with
      | zero =>
          rw [if_pos Nat.zero_lt_one] at h
          rcases hc with rfl | rfl
          · obtain rfl : (32 : UInt8) = b := Option.some.inj h
            decide
          · obtain rfl : (10 : UInt8) = b := Option.some.inj h
            decide
      | succ n =>
          rw [if_neg (by omega), Nat.add_sub_cancel] at h
          rw [Text.size, hsize] at hn
          exact isAsciiSpace_of_byteAt? rest hw (by omega) h

theorem isCodeAt_flatMap : ∀ (ms : List Mark) (n : Nat),
    isCodeAt (ms.flatMap Mark.uncomment) (ms.flatMap Mark.blank) n =
      isCodeAt (ms.map (·.char)) (ms.flatMap Mark.blank) n
  | [], _ => rfl
  | m :: ms, n => by
      rw [List.flatMap_cons, List.flatMap_cons, List.map_cons]
      by_cases hn : n < m.char.utf8Size
      · by_cases hk : m.kind = .comment
        · -- both texts have white space in the blanked one here
          have hspace : ∀ u : Text, isCodeAt u (m.blank ++ ms.flatMap Mark.blank) n = false := by
            intro u
            have hblank : m.blank = m.uncomment := by
              rw [Mark.blank, Mark.uncomment, hk]
              by_cases hline : m.char = '\n' <;> simp [hline]
            rw [isCodeAt, hblank]
            cases Text.byteAt? u n with
            | none => rfl
            | some a =>
                cases hb : Text.byteAt? (m.uncomment ++ ms.flatMap Mark.blank) n with
                | none => rfl
                | some b =>
                    have hs := isAsciiSpace_of_byteAt? _ (fun c hc => eq_of_mem_uncomment hk hc)
                      (by rwa [size_markUncomment]) hb
                    simp only [hs, Bool.not_true, Bool.and_false]
          rw [hspace, hspace]
        · rw [Mark.uncomment_of_ne hk, isCodeAt, isCodeAt, List.singleton_append, Text.byteAt?,
            Text.byteAt?, if_pos hn, if_pos hn]
      · obtain ⟨k, rfl⟩ := Nat.exists_eq_add_of_le (Nat.le_of_not_lt hn)
        have hleft := Text.byteAt?_append m.uncomment (ms.flatMap Mark.uncomment) k
        have hright := Text.byteAt?_append [m.char] (ms.map (·.char)) k
        have hblank := Text.byteAt?_append m.blank (ms.flatMap Mark.blank) k
        have hsize : Text.size [m.char] = m.char.utf8Size := rfl
        rw [size_markUncomment] at hleft
        rw [size_markBlank] at hblank
        rw [hsize, List.singleton_append] at hright
        have ih := isCodeAt_flatMap ms k
        rw [isCodeAt, isCodeAt] at ih ⊢
        rw [hleft, hright, hblank, ih]

theorem isCodeAt_uncomment (t : Text) (n : Nat) :
    (Source.of (uncomment t)).isCodeAt n = (Source.of t).isCodeAt n := by
  have hchars : (marks t 0).map (·.char) = t := by
    rw [marks, map_char_marksFrom, Text.after, Text.after?_zero]
    rfl
  have h := isCodeAt_flatMap (marks t 0) n
  rw [hchars] at h
  show isCodeAt (uncomment t) (blank (uncomment t)) n = isCodeAt t (blank t) n
  rw [blank_uncomment]
  exact h

end ServiceGate.Scan
