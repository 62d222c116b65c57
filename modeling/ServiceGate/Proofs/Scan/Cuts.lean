/-
# Places that the scan comes to in code

Behind a code character the scan is in code (`codePlace_behind`), and the rest of the text without
its comments is what is left of the rest (`uncomment_cut`).  From such a place the scan comes in
code to the first character that is neither comment nor white space, whatever regions are open
(`firstSignificant_cut`), and to the first comment, be it through strings (`exists_comment_cut`).

A flat character that the scan comes to in code is code, whatever follows (`InCode.isCodeAt`).
Behind a closed stretch at a place in code the code is that of the rest by itself
(`isCodeAt_behind`), so closed text in the place of a closed stretch leaves the code in front of it
and behind it as it was.
-/
import ServiceGate.ObjectLiteral.Basic
import ServiceGate.Proofs.Scan.Uncommented

namespace ServiceGate.Scan

variable {s s' : State} {c : Char} {next : Option Char} {n stop : Nat} {t p q : Text} {m : Mark}
  {ms : List Mark}

/-- The scan of the text comes to an offset in code. -/
def CodePlace (t : Text) (n : Nat) : Prop :=
  ∃ p q ms s, t = p ++ q ∧ n = Text.size p ∧ Reads q .start 0 p ms s ∧ s.mode = .code

/-- A comment stands at an offset. -/
def CommentAt (t : Text) (n : Nat) : Prop := ∃ m ∈ marks t 0, m.offset = n ∧ m.kind = .comment

instance (t : Text) (n : Nat) : Decidable (CommentAt t n) :=
  inferInstanceAs (Decidable (∃ m ∈ marks t 0, _))

/-! ## Places behind code -/

theorem State.mode_of_step_code (h : (s.step c next).kind = .code) :
    (s.step c next).state.mode = .code := by
  obtain ⟨mode, regions, last⟩ := s
  obtain rfl : mode = .code := (of_step_code h).1
  simp only [step, stepCode] at h ⊢
  split_ifs at h ⊢
  · cases regions <;> rfl
  · rcases regions with _ | ⟨_ | k, regions⟩
    · rfl
    · cases h
    · rfl
  · rfl

theorem codePlace_behind (h : ⟨n, c, .code⟩ ∈ marks t 0) : CodePlace t (n + c.utf8Size) := by
  have hmem : ⟨n, c, .code⟩ ∈ (visits t).map (·.1) := by
    rw [visits, map_fst_visitsFrom]
    rwa [marks_zero] at h
  obtain ⟨⟨m, σ⟩, hvisit, rfl⟩ := List.mem_map.mp hmem
  obtain ⟨p, q, ms, rfl, hn, hreads, hcode⟩ := reads_of_visit t hvisit rfl
  simp only [Nat.zero_add] at hn hreads hcode
  refine ⟨p ++ [c], q, _, _, by simp, ?_, hreads.append (.one (k := .code) ?_ .nil),
    State.mode_of_step_code hcode⟩
  · rw [Text.size_append, hn]
    rfl
  · rw [List.nil_append, ← hcode, ← (State.of_step_code hcode).2.2.2]

/-- What is left of a text, cut where a run over its first part ends. -/
theorem uncomment_cut (h : Reads q .start 0 p ms s) :
    uncomment (p ++ q) =
        ms.flatMap Mark.uncomment ++ (marksFrom s (Text.size p) q).flatMap Mark.uncomment ∧
      Text.size (ms.flatMap Mark.uncomment) = Text.size p := by
  constructor
  · rw [uncomment, marks_zero, h.marksFrom_eq,
      List.flatMap_append, Nat.zero_add]
  · rw [size_flatMap_uncomment, h.map_char]

theorem marks_cut (h : Reads q .start 0 p ms s) :
    marks (p ++ q) 0 = ms ++ marksFrom s (Text.size p) q := by
  rw [marks_zero, h.marksFrom_eq, Nat.zero_add]

/-! ## The first character that counts -/

/-- The offset of the first mark in front of `stop` that is neither comment nor white space. -/
def firstSignificant (stop : Nat) (ms : List Mark) : Option Nat :=
  ((ms.takeWhile fun m => m.offset < stop).find? fun m =>
    m.kind != .comment && !CharClass.isSpace m.char).map (·.offset)

theorem firstSignificant_cons (stop : Nat) (m : Mark) (ms : List Mark) :
    firstSignificant stop (m :: ms) =
      if m.offset < stop then
        if m.kind ≠ .comment ∧ CharClass.isSpace m.char = false then some m.offset
        else firstSignificant stop ms
      else none := by
  rw [firstSignificant, List.takeWhile_cons]
  by_cases hm : m.offset < stop
  · by_cases hs : m.kind ≠ .comment ∧ CharClass.isSpace m.char = false
    · simp [hm, hs]
    · rw [if_pos hm, if_neg hs, if_pos (by simpa using hm), List.find?_cons_of_neg]
      · rfl
      · simpa using hs
  · simp [hm]

/-- Outside of strings a step over comment or white space does not depend on the open regions. -/
theorem State.step_of_mode (h : s.mode = s'.mode) (hs : s.inString = false) (c : Char)
    (next : Option Char) :
    (s'.step c next).takesNext = (s.step c next).takesNext ∧
      ((s.step c next).kind = .comment ↔ (s'.step c next).kind = .comment) ∧
      ((s.step c next).kind ≠ .comment → s.mode = .code ∧ (s.step c next).takesNext = false) ∧
      ((s.step c next).kind = .comment ∨ CharClass.isSpace c = true →
        (s.step c next).state.mode = (s'.step c next).state.mode ∧
          (s.step c next).state.inString = false) := by
  obtain ⟨mode, regions, last⟩ := s
  obtain ⟨mode', regions', last'⟩ := s'
  simp only at h
  subst h
  cases mode with
  | string quote => cases hs
  | lineComment =>
      refine ⟨rfl, Iff.rfl, fun h => absurd rfl h, fun _ => ?_⟩
      simp only [step, stepLineComment]
      split_ifs <;> exact ⟨rfl, rfl⟩
  | blockComment =>
      simp only [step, stepBlockComment]
      split_ifs
      · exact ⟨rfl, Iff.rfl, fun h => absurd rfl h, fun _ => ⟨rfl, rfl⟩⟩
      · exact ⟨rfl, Iff.rfl, fun h => absurd rfl h, fun _ => ⟨rfl, rfl⟩⟩
  | code =>
      simp only [step, stepCode]
      split_ifs with h₁ h₂ h₃ h₄ h₅
      · exact ⟨rfl, Iff.rfl, fun h => absurd rfl h, fun _ => ⟨rfl, rfl⟩⟩
      · exact ⟨rfl, Iff.rfl, fun h => absurd rfl h, fun _ => ⟨rfl, rfl⟩⟩
      · refine ⟨rfl, Iff.rfl, fun _ => ⟨trivial, rfl⟩, fun h => ?_⟩
        simp only [Bool.or_eq_true, beq_iff_eq] at h₃
        rcases h₃ with (rfl | rfl) | rfl <;> rcases h with h | h <;> cases h
      · obtain rfl := beq_iff_eq.mp h₄
        have hno : CharClass.isSpace '\x7b' = false := by decide
        cases regions <;> cases regions' <;> simp [stepOpenBrace, hno]
      · obtain rfl := beq_iff_eq.mp h₅
        have hno : CharClass.isSpace '\x7d' = false := by decide
        rcases regions with _ | ⟨_ | k, regions⟩ <;> rcases regions' with _ | ⟨_ | k', regions'⟩ <;>
          simp [stepCloseBrace, hno]
      · exact ⟨rfl, Iff.rfl, fun _ => ⟨trivial, rfl⟩, fun _ => ⟨rfl, rfl⟩⟩

/-- From a place outside of strings the scan comes in code to the first character that counts, and
no open region changes where that is. -/
theorem firstSignificant_cut : ∀ (q : Text) {s s' : State} (n : Nat), s.mode = s'.mode →
    s.inString = false → firstSignificant stop (marksFrom s n q) = firstSignificant stop
    (marksFrom s' n q) ∧
      ∀ k, firstSignificant stop (marksFrom s n q) = some k → ∃ g x ms σ, q = g ++ x ∧
        k = n + Text.size g ∧ Reads x s n g ms σ ∧ σ.mode = .code ∧
          ∀ m ∈ (marksFrom σ k x).head?, m.kind ≠ .comment
  | [], s, s', n, _, _ => ⟨rfl, fun _ h => by cases h⟩
  | c :: t, s, s', n, hmode, hs => by
      obtain ⟨htakes, hkind, hcode, hnext⟩ := State.step_of_mode hmode hs c t.head?
      cases hr : (s.step c t.head?).takesNext with
      | false =>
          rw [marksFrom_one n hr, marksFrom_one n (htakes.trans hr), firstSignificant_cons,
            firstSignificant_cons]
          by_cases hn : n < stop
          · rw [if_pos hn, if_pos hn]
            by_cases hk : (s.step c t.head?).kind ≠ .comment ∧ CharClass.isSpace c = false
            · rw [if_pos hk, if_pos ⟨fun h => hk.1 (hkind.mpr h), hk.2⟩]
              refine ⟨rfl, fun k h => ⟨[], c :: t, [], s, rfl, (Option.some.inj h).symm, .nil,
                (hcode hk.1).1, fun m hm => ?_⟩⟩
              obtain ⟨ms, hms⟩ := exists_marksFrom_cons s k c t
              rw [hms] at hm
              exact Option.some.inj hm ▸ hk.1
            · have hskip : (s.step c t.head?).kind = .comment ∨ CharClass.isSpace c = true := by
                by_cases hcomment : (s.step c t.head?).kind = .comment
                · exact .inl hcomment
                · exact .inr (by simpa [hcomment] using hk)
              obtain ⟨hmode', hs'⟩ := hnext hskip
              obtain ⟨hsame, hcut⟩ := firstSignificant_cut t (n + c.utf8Size) hmode' hs'
              rw [if_neg hk, if_neg fun h => hk ⟨fun hc => h.1 (hkind.mp hc), h.2⟩]
              refine ⟨hsame, fun k h => ?_⟩
              obtain ⟨g, x, ms, σ, rfl, rfl, hreads, hσ⟩ := hcut k h
              exact ⟨c :: g, x, _, σ, rfl,
                by rw [Text.size, Nat.add_assoc], .one (by rw [← hr]) hreads, hσ⟩
          · rw [if_neg hn, if_neg hn]
            exact ⟨rfl, fun _ h => by cases h⟩
      | true =>
          match t, hr with
          | [], hr =>
              rw [List.head?_nil, State.takesNext_none] at hr
              cases hr
          | d :: t, hr =>
              simp only [List.head?_cons] at htakes hkind hcode hnext hr
              have hcomment : (s.step c (some d)).kind = .comment := by
                by_contra hk
                rw [(hcode hk).2] at hr
                cases hr
              obtain ⟨hmode', hs'⟩ := hnext (.inl hcomment)
              obtain ⟨hsame, hcut⟩ :=
                firstSignificant_cut t (n + c.utf8Size + d.utf8Size) hmode' hs'
              rw [marksFrom_two n hr, marksFrom_two n (htakes.trans hr), hkind.mp hcomment,
                hcomment]
              simp only [firstSignificant_cons, ne_eq, not_true_eq_false, false_and, if_false]
              refine ⟨by rw [hsame], fun k h => ?_⟩
              split_ifs at h
              obtain ⟨g, x, ms, σ, rfl, rfl, hreads, hσ⟩ := hcut k h
              refine ⟨c :: d :: g, x, _, σ, rfl, ?_, .two (by rw [← hr]) hreads, hσ⟩
              simp only [Text.size, Nat.add_assoc]

/-- Without the comments the first character that counts is the same. -/
theorem firstSignificant_spread : ∀ {ms : List Mark},
    (∀ m ∈ ms, m.offset < stop → m.offset + m.char.utf8Size ≤ stop) →
      firstSignificant stop (ms.flatMap Mark.spread) = firstSignificant stop ms
  | [], _ => rfl
  | m :: ms, h => by
      obtain ⟨hm, hms⟩ := List.forall_mem_cons.mp h
      have ih := firstSignificant_spread hms
      rw [List.flatMap_cons]
      by_cases hk : m.kind = .comment
      · have hskipped : ¬ (m.kind ≠ .comment ∧ CharClass.isSpace m.char = false) := fun h => h.1 hk
        rw [firstSignificant_cons stop m ms, if_neg hskipped]
        by_cases hstop : m.offset < stop
        · rw [if_pos hstop, ← ih]
          have hskip : ∀ xs : List Mark,
              (∀ x ∈ xs, x.offset < stop ∧ CharClass.isSpace x.char = true) →
              firstSignificant stop (xs ++ ms.flatMap Mark.spread) =
                firstSignificant stop (ms.flatMap Mark.spread) := by
            intro xs hxs
            induction xs with
            | nil => rfl
            | cons x xs ihxs =>
                obtain ⟨⟨hx, hspace⟩, hxs⟩ := List.forall_mem_cons.mp hxs
                rw [List.cons_append, firstSignificant_cons, if_pos hx, if_neg (by simp [hspace]),
                  ihxs hxs]
          refine hskip _ fun x hx => ?_
          obtain ⟨-, hbehind, -, hchar⟩ := of_mem_spread hk hx
          have := hm hstop
          refine ⟨by omega, ?_⟩
          rcases hchar with hchar | hchar <;> rw [hchar] <;> decide
        · obtain ⟨c, xs, hxs⟩ := exists_spread_cons hk
          rw [hxs, List.cons_append, firstSignificant_cons, if_neg hstop]
          exact (if_neg hstop).symm
      · rw [Mark.spread_of_ne hk, List.singleton_append, firstSignificant_cons,
          firstSignificant_cons, ih]

/-! ## The first comment -/

/-- From a place outside of comments the scan comes to the first comment in code. -/
theorem exists_comment_cut : ∀ (x : Text) {s : State} (n : Nat), s.uncommented = s →
    (∀ m ∈ marksFrom s n x, m.kind ≠ .comment) ∨ ∃ g z ms σ, x = g ++ '/' :: z ∧
      Reads ('/' :: z) s n g ms σ ∧ σ.mode = .code ∧ (∀ m ∈ ms, m.kind ≠ .comment) ∧
      ∃ ms', marksFrom σ (n + Text.size g) ('/' :: z) = ⟨n + Text.size g, '/', .comment⟩ :: ms'
  | [], s, n, _ => .inl fun _ h => absurd h List.not_mem_nil
  | c :: t, s, n, hs => by
      by_cases hk : (s.step c t.head?).kind = .comment
      · obtain ⟨hmode, rfl⟩ := State.opens_of_step_comment hs hk
        refine .inr ⟨[], t, [], s, rfl, .nil, hmode, fun _ h => absurd h List.not_mem_nil, ?_⟩
        obtain ⟨ms, hms⟩ := exists_marksFrom_cons s n '/' t
        exact ⟨ms, by rw [hk] at hms; exact hms⟩
      · have hs' := (State.of_step_ne_comment hk).2
        cases hr : (s.step c t.head?).takesNext with
        | false =>
            rw [marksFrom_one n hr]
            rcases exists_comment_cut t (n + c.utf8Size) hs' with
                hnone | ⟨g, z, ms, σ, rfl, hreads, hσ, hms, hcomment⟩
            · exact .inl (List.forall_mem_cons.mpr ⟨hk, hnone⟩)
            · refine .inr ⟨c :: g, z, _, σ, rfl, .one (by rw [← hr]) hreads, hσ,
                List.forall_mem_cons.mpr ⟨hk, hms⟩, ?_⟩
              rwa [Text.size, ← Nat.add_assoc]
        | true =>
            match t, hr with
            | [], hr =>
                rw [List.head?_nil, State.takesNext_none] at hr
                cases hr
            | d :: t, hr =>
                rw [marksFrom_two n hr]
                rcases exists_comment_cut t (n + c.utf8Size + d.utf8Size) hs' with
                  hnone | ⟨g, z, ms, σ, rfl, hreads, hσ, hms, hcomment⟩
                · exact .inl (List.forall_mem_cons.mpr ⟨hk, List.forall_mem_cons.mpr ⟨hk, hnone⟩⟩)
                · refine .inr ⟨c :: d :: g, z, _, σ, rfl, .two (by rw [← hr]; rfl) hreads, hσ,
                    List.forall_mem_cons.mpr ⟨hk, List.forall_mem_cons.mpr ⟨hk, hms⟩⟩, ?_⟩
                  rwa [Text.size, Text.size, ← Nat.add_assoc, ← Nat.add_assoc]

/-! ## Code on both sides of an edit -/

section Edit

variable {w : Text}

theorem InCode.isCodeAt (h : InCode p c) (hc : isFlat c = true)
    (hspace : CharClass.isAsciiSpace c = false) (q : Text) :
    (Source.of (p ++ c :: q)).isCodeAt (Text.size p) = true := by
  obtain ⟨ms, s, hs, hreads⟩ := h
  have hstep := step_flat hc hs q.head?
  have hmarks : marks (p ++ c :: q) 0 = ms ++ ⟨Text.size p, c, .code⟩ ::
      marksFrom s (Text.size p + c.utf8Size) q := by
    rw [marks_cut (hreads q), marksFrom_one _ (by rw [hstep]), hstep]
  exact isCodeAt_of_mark hspace hmarks (hreads q).map_char

theorem isCodeAt_front (h : (Source.of (p ++ c :: q)).isCodeAt (Text.size p) = true)
    (hc : isFlat c = true) (hspace : CharClass.isAsciiSpace c = false) (q' : Text) :
    (Source.of (p ++ c :: q')).isCodeAt (Text.size p) = true :=
  (inCode_of_isCodeAt h).isCodeAt hc hspace q'

theorem Reads.isCodeAt_same {p' : Text} {ms' : List Mark} (h : Reads q .start 0 p ms s)
    (h' : Reads q .start 0 p' ms' s) (n : Nat) :
    (Source.of (p ++ q)).isCodeAt (Text.size p + n) = (Source.of (p' ++ q)).isCodeAt
    (Text.size p' + n) := by
  have hcode : ∀ {p : Text} {ms : List Mark}, Reads q .start 0 p ms s →
      (Source.of (p ++ q)).isCodeAt (Text.size p + n) =
        isCodeAt q ((marksFrom s 0 q).flatMap Mark.blank) n := by
    intro p ms h
    have hblank : blank (p ++ q) = ms.flatMap Mark.blank ++
        (marksFrom s 0 q).flatMap Mark.blank := by
      rw [blank, marks_cut h, ← Nat.add_zero (Text.size p), marksFrom_shift, List.flatMap_append,
        List.flatMap_map]
      rfl
    have hbyte :=
      Text.byteAt?_append (ms.flatMap Mark.blank) ((marksFrom s 0 q).flatMap Mark.blank) n
    rw [size_flatMap_markBlank, h.map_char] at hbyte
    show Scan.isCodeAt (p ++ q) (blank (p ++ q)) (Text.size p + n) = _
    rw [Scan.isCodeAt, Scan.isCodeAt, hblank, Text.byteAt?_append, hbyte]
  rw [hcode h, hcode h']

/-- Behind a flat stretch that starts in code, code stays code if the stretch is exchanged for
another. -/
theorem InCode.isCodeAt_flat {d : Char} {u : Text} (h : InCode p c)
    (hw : ∀ x ∈ c :: w, isFlat x = true) (hu : ∀ x ∈ d :: u, isFlat x = true) (hd : d ≠ '*')
    (n : Nat) :
    (Source.of (p ++ c :: w ++ q)).isCodeAt (Text.size (p ++ c :: w) + n) =
      (Source.of (p ++ d :: u ++ q)).isCodeAt (Text.size (p ++ d :: u) + n) := by
  obtain ⟨ms, s, hs, hreads⟩ := h
  obtain ⟨ms₁, hms₁, -⟩ := reads_flat hs q (c :: w) (0 + Text.size p) hw
  obtain ⟨ms₂, hms₂, -⟩ := reads_flat hs q (d :: u) (0 + Text.size p) hu
  have hnew := (hreads (w ++ q)).detach_flat hs (hu d List.mem_cons_self) hd (u ++ q)
  exact ((hreads (w ++ q)).append hms₁).isCodeAt_same (hnew.append hms₂) n

/-- Where the scan is as at the start, the code is that of the rest by itself. -/
theorem Reads.isCodeAt_behind (h : Reads q .start 0 p ms s) (hs : s.Agrees .start) (n : Nat) :
    (Source.of (p ++ q)).isCodeAt (Text.size p + n) = (Source.of q).isCodeAt n := by
  have hmarks : marks (p ++ q) 0 = ms ++ (marks q 0).map (Mark.shift (Text.size p)) := by
    have hq := marks_append_right p q 0
    rw [Nat.add_zero, marks, Text.after_append] at hq
    rw [marks_cut h, ← hq, marksFrom_agrees q _ hs]
  have hblank : blank (p ++ q) = ms.flatMap Mark.blank ++ blank q := by
    rw [blank, hmarks, List.flatMap_append, List.flatMap_map]
    rfl
  have hsize : Text.size (ms.flatMap Mark.blank) = Text.size p := by
    rw [size_flatMap_markBlank, h.map_char]
  have hbyte := Text.byteAt?_append (ms.flatMap Mark.blank) (blank q) n
  rw [hsize] at hbyte
  show Scan.isCodeAt (p ++ q) (blank (p ++ q)) (Text.size p + n) = Scan.isCodeAt q (blank q) n
  rw [Scan.isCodeAt, Scan.isCodeAt, hblank, Text.byteAt?_append, hbyte]

/-- Behind a closed stretch at a place in code the code is that of the rest. -/
theorem isCodeAt_behind (hp : EndsInCode p) (hw : Closed w) (q : Text) (n : Nat) :
    (Source.of (p ++ w ++ q)).isCodeAt (Text.size (p ++ w) + n) = (Source.of q).isCodeAt n := by
  obtain ⟨hstate, hslash⟩ := hp
  obtain ⟨ms, s, hreads, hs, -⟩ := hw q _ (0 + Text.size p) hstate
  exact ((reads_of_after p 0 hstate.1 hslash (w ++ q)).append hreads).isCodeAt_behind hs n

end Edit

end ServiceGate.Scan
