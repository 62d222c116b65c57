/-
# The brackets of the blanked text

Blanking leaves the brackets that are code, so the blanked text opens and closes what the text does
(`trackAll_blank`).  What is open at a place is told by the text in front of it (`IsOpenAt`): a
stretch that closes what it opens changes nothing (`ClosedBetween.isOpenAt_iff`), and in a balanced
text a closing bracket closes what was open (`isOpenAt_of_closer`).
-/
import Mathlib.Data.List.TakeWhile
import ServiceGate.Proofs.Scan.Idle
import ServiceGate.Proofs.Scan.InCode
import ServiceGate.Proofs.Scan.Places

namespace ServiceGate.Scan

open Text (Bounds)

variable {t a b : Text} {c : Char} {n start stop : Nat} {kind : Bracket}

theorem trackAll_blank (d : Depths) : ∀ ms : List Mark,
    d.trackAll (ms.flatMap Mark.blank) = d.trackAll (codeText ms)
  | [] => rfl
  | ⟨n, c, k⟩ :: ms => by
      rw [List.flatMap_cons, Depths.trackAll_append, codeText_cons]
      by_cases hk : k = .code
      · subst hk
        rw [if_pos rfl, Depths.trackAll]
        have hblank : (⟨n, c, .code⟩ : Mark).blank = [c] := rfl
        rw [hblank, Depths.trackAll]
        cases d.track c with
        | none => rfl
        | some d' => exact trackAll_blank d' ms
      · rw [if_neg hk, trackAll_plain d fun c hc => isPlain_of_mem_blank hk hc]
        exact trackAll_blank d ms

theorem trackAll_blank_of_balanced (ht : balanced t = true) :
    Depths.trackAll ⟨0, 0, 0⟩ (blank t) = some ⟨0, 0, 0⟩ := by
  rw [blank, trackAll_blank]
  exact beq_iff_eq.mp (Bool.and_eq_true_iff.mp ht).1

theorem exists_closer_of_balanced (ht : balanced t = true) (hcut : blank t = a ++ '\x7b' :: b) :
    '\x7d' ∈ b := by
  have htrack := trackAll_blank_of_balanced ht
  rw [hcut, Depths.trackAll_append] at htrack
  obtain ⟨d, -, htrack⟩ := Option.bind_eq_some_iff.mp htrack
  rw [← map_snd_indexed b 0] at htrack
  obtain ⟨n, hn⟩ : ∃ n, closeIn '\x7b' '\x7d' 0 (Text.indexed 0 b) = some n :=
    exists_closeIn (b := .brace) htrack (Nat.succ_pos d.braces)
  have hmem := List.mem_map_of_mem (f := Prod.snd) (mem_of_closeIn (b := .brace) hn)
  rwa [map_snd_indexed] at hmem

/-! ## What is open at a place -/

/-- The brackets that are open at a place; `none` where one was closed that was not open. -/
def depthsAt? (t : Text) (n : Nat) : Option Depths := Depths.trackAll ⟨0, 0, 0⟩ ((blank t).before n)

/-- A bracket of a kind is open at a place. -/
def IsOpenAt (t : Text) (kind : Bracket) (n : Nat) : Prop := ∃ d ∈ depthsAt? t n, 0 < d.count kind

instance (t : Text) (kind : Bracket) (n : Nat) : Decidable (IsOpenAt t kind n) :=
  inferInstanceAs (Decidable (∃ d ∈ depthsAt? t n, _))

/-- The code from one place to another closes the brackets that it opens, and no others. -/
structure ClosedBetween (t : Text) (start stop : Nat) : Prop where
  bounds : Bounds t start stop
  track : Depths.trackAll ⟨0, 0, 0⟩ ((blank t).between start stop) = some ⟨0, 0, 0⟩

instance (t : Text) (start stop : Nat) : Decidable (ClosedBetween t start stop) :=
  decidable_of_iff ((start ≤ stop ∧ t.IsBoundary start ∧ t.IsBoundary stop) ∧
      Depths.trackAll ⟨0, 0, 0⟩ ((blank t).between start stop) = some ⟨0, 0, 0⟩)
    ⟨fun ⟨⟨hle, hstart, hstop⟩, h⟩ => ⟨⟨hle, hstart, hstop⟩, h⟩,
      fun h => ⟨⟨h.bounds.le, h.bounds.start, h.bounds.stop⟩, h.track⟩⟩

/-- What blanking leaves of a stretch that the scan comes to. -/
theorem Reads.between_blank {p w q : Text} {s s' : State} {ms ms' : List Mark}
    (h : Reads (w ++ q) .start 0 p ms s) (h' : Reads q s (0 + Text.size p) w ms' s') :
    (blank (p ++ w ++ q)).between (Text.size p) (Text.size p + Text.size w) =
      ms'.flatMap Mark.blank := by
  have hp : Text.size (ms.flatMap Mark.blank) = Text.size p := by
    rw [size_flatMap_markBlank, h.map_char]
  have hw : Text.size (ms'.flatMap Mark.blank) = Text.size w := by
    rw [size_flatMap_markBlank, h'.map_char]
  rw [blank, marks_cut (h.append h'), List.flatMap_append, List.flatMap_append, ← hp, ← hw,
    Text.between_append]

/-- A stretch that the scan comes to, with neutral code. -/
theorem closedBetween_of_reads {p w q : Text} {s s' : State} {ms ms' : List Mark}
    (h : Reads (w ++ q) .start 0 p ms s) (h' : Reads q s (0 + Text.size p) w ms' s')
    (hneutral : Neutral (codeOf ms')) :
    ClosedBetween (p ++ w ++ q) (Text.size p) (Text.size p + Text.size w) := by
  refine ⟨Text.bounds_iff.mpr ⟨p, w, q, rfl, rfl, rfl⟩, ?_⟩
  rw [h.between_blank h', trackAll_blank]
  exact hneutral.trackAll _

/-- Where the code closes what it opens, the same brackets are open at both ends. -/
theorem ClosedBetween.isOpenAt_iff (h : ClosedBetween t start stop) :
    IsOpenAt t kind stop ↔ IsOpenAt t kind start := by
  have htrack := h.track
  obtain ⟨p, w, q, hcut, rfl, rfl⟩ := Text.bounds_iff.mp (bounds_blank h.bounds)
  rw [hcut, Text.between_append] at htrack
  have hfront : depthsAt? t (Text.size p) = Depths.trackAll ⟨0, 0, 0⟩ p := by
    rw [depthsAt?, hcut, List.append_assoc, Text.before_append]
  have hboth : depthsAt? t (Text.size p + Text.size w) = depthsAt? t (Text.size p) := by
    rw [hfront, depthsAt?, hcut, ← Text.size_append, Text.before_append, Depths.trackAll_append]
    cases Depths.trackAll ⟨0, 0, 0⟩ p with
    | none => rfl
    | some d =>
        have hover := Depths.trackAll_over d htrack
        rw [Option.bind_some]
        simpa only [Depths.over, Nat.zero_add] using hover
  rw [IsOpenAt, IsOpenAt, hboth]

/-- The code behind a place, from its first character on. -/
def codeBehind (t : Text) (n : Nat) : Text := ((blank t).after n).trimStart

/-- In a balanced text what is closed first behind a place was open there. -/
theorem isOpenAt_of_closer (ht : balanced t = true) (hn : t.IsBoundary n)
    (h : (codeBehind t n).head? = some kind.closer) : IsOpenAt t kind n := by
  have htrack := trackAll_blank_of_balanced ht
  obtain ⟨rest, hrest⟩ := List.head?_eq_some_iff.mp h
  obtain ⟨gap, hgap, hspaces⟩ : ∃ gap, (blank t).after n = gap ++ kind.closer :: rest ∧
      ∀ c ∈ gap, isPlain c = true := by
    refine ⟨((blank t).after n).takeWhile CharClass.isSpace, ?_, fun c hc => ?_⟩
    · rw [← hrest, codeBehind, Text.trimStart, List.takeWhile_append_dropWhile]
    · exact (isPlain_of_isSpace (List.mem_takeWhile_imp hc)).2.1
  rw [← Text.before_append_after (isBoundary_blank hn), hgap, Depths.trackAll_append] at htrack
  obtain ⟨d, hd, htrack⟩ := Option.bind_eq_some_iff.mp htrack
  rw [Depths.trackAll_append, trackAll_plain d hspaces, Option.bind_some, Depths.trackAll] at htrack
  obtain ⟨d', hd', -⟩ := Option.bind_eq_some_iff.mp htrack
  refine ⟨d, hd, ?_⟩
  rcases Depths.count_track hd' kind with ⟨hc, -⟩ | ⟨-, hcount⟩ | ⟨-, hc, -⟩
  · cases kind <;> cases hc
  · omega
  · exact absurd rfl hc

end ServiceGate.Scan

/-!
## Blanking as a projection onto code

The blanked text has the offsets of the text (`isBoundary_blank`) and at each of them the character
itself or blanks (`between_blank`).  It is all code, so it is its own blanked form (`blank_blank`),
and its brackets are those in the code of the text (`trackAll_blank`).  The main statement,
`blank_projects`, puts these together with the bytes that count as code.
-/

namespace ServiceGate.Scan

variable {t p q : Text} {s : State} {m : Mark} {n : Nat}

/-! ## Offsets -/

theorem exists_cut_of_mem_marks (h : m ∈ marks t 0) : ∃ p q ms ms', t = p ++ m.char :: q ∧
    m.offset = Text.size p ∧ marks t 0 = ms ++ m :: ms' ∧ ms.map (·.char) = p := by
  obtain ⟨ms, ms', hmarks⟩ := List.append_of_mem h
  obtain ⟨ht, hoffset⟩ := text_of_marks_cut hmarks
  exact ⟨_, _, ms, ms', ht, hoffset, hmarks, rfl⟩

/-- At the offset of a character the blanked text has what is left of it. -/
theorem between_blank (h : m ∈ marks t 0) :
    t.between m.offset (m.offset + m.char.utf8Size) = [m.char] ∧
      (blank t).between m.offset (m.offset + m.char.utf8Size) = m.blank := by
  obtain ⟨p, q, ms, ms', rfl, hoffset, hmarks, hp⟩ := exists_cut_of_mem_marks h
  constructor
  · have hcut := Text.between_append p [m.char] q
    rw [List.append_assoc, List.singleton_append] at hcut
    rw [hoffset]
    exact hcut
  · have hcut := Text.between_append (ms.flatMap Mark.blank) m.blank (ms'.flatMap Mark.blank)
    rw [size_flatMap_markBlank, hp, size_markBlank, ← hoffset] at hcut
    rw [← hcut, blank, hmarks, List.flatMap_append, List.flatMap_cons, List.append_assoc]

/-! ## The scan of the blanked text -/

theorem PureCode.after_eq (h : PureCode t) (hm : s.mode = .code) (hr : s.regions = []) :
    s.after t = s := by
  induction h with
  | nil => rfl
  | cons hq hc _ ih =>
      have hstep := State.step_plain hm hr hq hc
      rw [State.after_one (by rw [hstep]), hstep]
      exact ih

theorem PureCode.blank_eq (h : PureCode t) : blank t = t := by
  rw [blank, marks_zero, h.marksFrom_eq rfl rfl,
    List.flatMap_map]
  calc (t.indexed 0).flatMap (fun x => Mark.blank ⟨x.1, x.2, .code⟩)
      = (t.indexed 0).flatMap fun x => [x.2] := rfl
    _ = (t.indexed 0).map (·.2) := List.flatMap_pure_eq_map _ _
    _ = t := map_snd_indexed t 0

theorem pureCode_blank_self (t : Text) : PureCode (blank t) := pureCode_blank _ .start 0

/-- The blanked text has nothing but code, hence nothing to blank. -/
theorem blank_blank (t : Text) : blank (blank t) = blank t := (pureCode_blank_self t).blank_eq

theorem kind_of_mem_marks_blank (h : m ∈ marks (blank t) 0) : m.kind = .code := by
  rw [marks_zero,
    (pureCode_blank_self t).marksFrom_eq rfl rfl] at h
  obtain ⟨x, -, rfl⟩ := List.mem_map.mp h
  rfl

/-! ## Balance -/

theorem balanced_eq (t : Text) : balanced t =
    (Depths.trackAll ⟨0, 0, 0⟩ (codeText (marks t 0)) == some ⟨0, 0, 0⟩ &&
      !(finalState t).inLiteral) := rfl

theorem balanced_blank (t : Text) : balanced (blank t) =
    (Depths.trackAll ⟨0, 0, 0⟩ (codeText (marks t 0)) == some ⟨0, 0, 0⟩) := by
  have hcode : codeText (marks (blank t) 0) = blank t := by
    rw [codeText, marks_zero,
      (pureCode_blank_self t).codeOf_eq rfl rfl, map_snd_indexed]
  have hfinal : finalState (blank t) = .start := (pureCode_blank_self t).after_eq rfl rfl
  rw [balanced_eq, hcode, hfinal, blank, trackAll_blank]
  exact Bool.and_true _

/-! ## Bytes in code -/

theorem exists_char_of_byteAt? {b : UInt8} : ∀ {t : Text} {n : Nat}, t.byteAt? n = some b →
    ∃ p c q i, t = p ++ c :: q ∧ n = Text.size p + i ∧ i < c.utf8Size
  | c :: t, n, h => by
      by_cases hn : n < c.utf8Size
      · exact ⟨[], c, t, n, rfl, (Nat.zero_add n).symm, hn⟩
      · rw [Text.byteAt?, if_neg hn] at h
        obtain ⟨p, d, q, i, rfl, hi, hlt⟩ := exists_char_of_byteAt? h
        refine ⟨c :: p, d, q, i, rfl, ?_, hlt⟩
        rw [Text.size]
        omega

theorem isCodeAt_iff : isCodeAt t (blank t) n = true ↔ ∃ m ∈ marks t 0, m.kind = .code ∧
    CharClass.isAsciiSpace m.char = false ∧ m.offset ≤ n ∧ n < m.offset + m.char.utf8Size := by
  constructor
  · intro h
    obtain ⟨b, hb⟩ : ∃ b, t.byteAt? n = some b := by
      cases hbyte : t.byteAt? n with
      | none => rw [isCodeAt, hbyte] at h; cases h
      | some b => exact ⟨b, rfl⟩
    obtain ⟨p, c, q, i, rfl, rfl, hi⟩ := exists_char_of_byteAt? hb
    obtain ⟨ms, k, ms', hmarks, hp⟩ := exists_marks_cut p c q
    rw [isCodeAt_eq hmarks hp hi, Bool.and_eq_true, beq_iff_eq, Bool.not_eq_true'] at h
    refine ⟨⟨Text.size p, c, k⟩, ?_, h.1, h.2, Nat.le_add_right _ _, Nat.add_lt_add_left hi _⟩
    rw [hmarks]
    exact List.mem_append_right _ List.mem_cons_self
  · rintro ⟨m, hm, hk, hspace, hle, hlt⟩
    obtain ⟨p, q, ms, ms', rfl, hoffset, hmarks, hp⟩ := exists_cut_of_mem_marks hm
    obtain ⟨i, rfl⟩ := Nat.exists_eq_add_of_le hle
    obtain ⟨_, c, k⟩ := m
    dsimp only at hoffset hk hspace hlt hmarks ⊢
    subst hoffset hk
    rw [isCodeAt_eq hmarks hp (Nat.lt_of_add_lt_add_left hlt), hspace]
    rfl

/-! ## The projection -/

/-- Blanking keeps the length, every boundary, all code and the line feeds, and overwrites the rest
with spaces; the blanked text is code from end to end, so that blanking it again changes nothing,
and it is balanced exactly if the brackets in the code of the text are; the bytes in code are those
of code characters, ASCII white space apart. -/
theorem blank_projects (t : Text) :
    Text.size (blank t) = Text.size t ∧
    (∀ n, t.IsBoundary n → (blank t).IsBoundary n) ∧
    (marks t 0).map (fun m => (m.offset, m.char)) = t.indexed 0 ∧
    (∀ m ∈ marks t 0, t.between m.offset (m.offset + m.char.utf8Size) = [m.char] ∧
      (blank t).between m.offset (m.offset + m.char.utf8Size) =
        if m.kind = .code ∨ m.char = '\n' then [m.char] else List.replicate m.char.utf8Size ' ') ∧
    (∀ m ∈ marks (blank t) 0, m.kind = .code) ∧
    blank (blank t) = blank t ∧
    (balanced t = true ↔ balanced (blank t) = true ∧ (finalState t).inLiteral = false) ∧
    ∀ n, isCodeAt t (blank t) n = true ↔ ∃ m ∈ marks t 0, m.kind = .code ∧
      CharClass.isAsciiSpace m.char = false ∧ m.offset ≤ n ∧ n < m.offset + m.char.utf8Size := by
  refine ⟨size_blank t, fun _ => isBoundary_blank, ?_, fun _ => between_blank,
    fun _ => kind_of_mem_marks_blank, blank_blank t, ?_, fun _ => isCodeAt_iff⟩
  · rw [marks, chars_marksFrom, Text.after, Text.after?_zero]
    rfl
  · rw [balanced_blank, balanced_eq, Bool.and_eq_true, Bool.not_eq_true']

/-- A string, a region with a comment in it, and a line comment. -/
example : blank "f('a', \x60b$\x7bc /* d */\x7d\x60) // é\n".toList =
    "f(   ,     c          )      \n".toList := by decide

end ServiceGate.Scan
