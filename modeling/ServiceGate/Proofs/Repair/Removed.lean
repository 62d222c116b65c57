/-
# What goes with a schema

A schema is removed from the start of its name's line to the end of its statement, which is looked
for from the name on.  `Ends` says what ends a statement, and `le_statementStop_iff` that the first
such place is taken.  The search does not look at what made the declaration one, so the end may come
in front of the dot behind `z`, or lie inside of a block comment.

`Whole` is the condition on which none of that happens; then the whole declaration goes, and what is
left goes on in code (`removes_whole`).
-/
import ServiceGate.Proofs.Pattern.Extended
import ServiceGate.Proofs.Repair.Cascade
import ServiceGate.Proofs.Scan.Brackets
import ServiceGate.Proofs.Scan.Inside

namespace ServiceGate

open Pattern Scan
open Text (Agree Bounds)

variable {t : Text} {n k : Nat} {depth : Int} {m : Mark} {ms : List Mark}

/-! ## Steps -/

namespace Scan.State

theorem inString_of_step {s : State} {c : Char} {next : Option Char}
    (h : (s.step c next).kind ≠ .literal) : s.inString = false := by
  cases hs : s.mode with
  | code | lineComment | blockComment => simp [State.inString, hs]
  | string quote =>
      refine absurd ?_ h
      simp only [State.step, hs, State.stepString]
      split_ifs <;> rfl

theorem of_takesNext {s : State} {c : Char} {next : Option Char}
    (h : (s.step c next).takesNext = true) : (s.step c next).kind ≠ .code ∧
      ((s.step c next).kind = .literal ∨ c ≠ '\n' ∧ next ≠ some '\n') := by
  refine ⟨fun hcode => ?_, ?_⟩
  · rw [(State.of_step_code hcode).2.2.2] at h
    cases h
  · cases hs : s.mode with
    | lineComment =>
        simp only [State.step, hs, State.stepLineComment] at h
        cases h
    | blockComment =>
        simp only [State.step, hs, State.stepBlockComment] at h ⊢
        split_ifs at h with hstar
        simp only [Bool.and_eq_true, beq_iff_eq] at hstar
        exact .inr ⟨by rw [hstar.1]; decide, by rw [hstar.2]; decide⟩
    | string quote =>
        refine .inl ?_
        simp only [State.step, hs, State.stepString]
        split_ifs <;> rfl
    | code =>
        simp only [State.step, hs, State.stepCode] at h ⊢
        split_ifs at h with hline hblock
        · simp only [Bool.and_eq_true, beq_iff_eq] at hline
          exact .inr ⟨by rw [hline.1]; decide, by rw [hline.2]; decide⟩
        · simp only [Bool.and_eq_true, beq_iff_eq] at hblock
          exact .inr ⟨by rw [hblock.1]; decide, by rw [hblock.2]; decide⟩
        · cases hr : s.regions <;> simp [State.stepOpenBrace, hr] at h
        · rcases hr : s.regions with _ | ⟨_ | d, regions⟩ <;> simp [State.stepCloseBrace, hr] at h

end Scan.State

theorem inCode_of_blank {c : Char} {u v : Text} (hc : c ≠ ' ') (hfeed : c ≠ '\n')
    (h : blank t = u ++ c :: v) : ∃ p q, t = p ++ c :: q ∧ Text.size p = Text.size u ∧
    InCode p c := by
  obtain ⟨ms, ⟨i, d, k⟩, ms', hmarks, rfl, hkind, hsize⟩ := exists_mark_of_blank hc h
  obtain rfl : k = .code := hkind.resolve_right hfeed
  obtain ⟨ht, hoffset⟩ := text_of_marks_cut hmarks
  obtain ⟨p, q, ht', hp, hcode⟩ :=
    inCode_of_mem_marks (hmarks ▸ List.mem_append_right ms List.mem_cons_self)
  exact ⟨p, q, ht', by rw [← hp, ← hsize, ← hoffset], hcode⟩

namespace Repair

/-! ## Where a statement ends -/

def depthBehind (depth : Int) (m : Mark) : Int :=
  if m.kind != .code then depth
  else if isOpener m.char then depth + 1 else if isCloser m.char then depth - 1 else depth

/-- A mark that ends a statement at a depth: outside of groups a semicolon, or a line feed behind
which the statement does not go on. -/
def Ends (t : Text) (depth : Int) (m : Mark) : Prop :=
  depth ≤ 0 ∧ (m.char = ';' ∧ m.kind = .code ∨
    m.char = '\n' ∧ m.kind ≠ .literal ∧ continuesBehind t m.offset = false)

instance (t : Text) (depth : Int) (m : Mark) : Decidable (Ends t depth m) :=
  inferInstanceAs (Decidable (_ ∧ (_ ∧ _ ∨ _ ∧ _ ∧ _)))

/-- The end of a statement that a mark ends: behind a semicolon, in front of a line feed. -/
def endAt (m : Mark) : Nat := if m.char = ';' then m.offset + 1 else m.offset

theorem stopIn_cons (t : Text) (depth : Int) (m : Mark) (ms : List Mark) :
    stopIn t depth (m :: ms) =
    if Ends t depth m then endAt m else stopIn t (depthBehind depth m) ms := by
  obtain ⟨i, c, kind⟩ := m
  rw [stopIn]
  by_cases hc : c = '\n'
  · subst hc
    cases kind <;> by_cases hd : depth ≤ 0 <;> cases hcont : continuesBehind t i <;>
      simp [Ends, endAt, depthBehind, hd, hcont, isOpener, isCloser, closer?]
  by_cases hc' : c = ';'
  · subst hc'
    cases kind <;> by_cases hd : depth ≤ 0 <;>
      simp [Ends, endAt, depthBehind, hd, isOpener, isCloser, closer?]
  · cases kind with
    | code =>
        simp [Ends, depthBehind, hc, hc']
        split_ifs <;> rfl
    | literal | comment => simp [Ends, depthBehind, hc, hc']

/-- A place is in front of the end exactly if no mark ends the statement in front of it. -/
theorem le_stopIn_iff : ∀ {ms : List Mark} {depth : Int},
    (ms.Pairwise fun m m' => m.offset < m'.offset) → (∀ m ∈ ms, m.offset < Text.size t) →
      (k ≤ stopIn t depth ms ↔ k ≤ Text.size t ∧ ∀ before m behind, ms = before ++ m :: behind →
        Ends t (before.foldl depthBehind depth) m → k ≤ endAt m)
  | [], depth, _, _ => by
      rw [stopIn]
      exact (and_iff_left fun before m behind h => by cases before <;> cases h).symm
  | m :: ms, depth, horder, hsize => by
      obtain ⟨hfirst, horder⟩ := List.pairwise_cons.mp horder
      obtain ⟨hm, hsize⟩ := List.forall_mem_cons.mp hsize
      have hend : ∀ m : Mark, m.offset ≤ endAt m ∧ endAt m ≤ m.offset + 1 := fun m => by
        rw [endAt]
        split_ifs <;> omega
      rw [stopIn_cons]
      split_ifs with hends
      · constructor
        · refine fun hk => ⟨by have := hend m; omega, fun before m' behind hcut hends' => ?_⟩
          cases before with
          | nil =>
              obtain ⟨rfl, -⟩ := List.cons.inj hcut
              exact hk
          | cons x before =>
              obtain ⟨rfl, rfl⟩ := List.cons.inj hcut
              have hlt := hfirst m' (List.mem_append_right _ List.mem_cons_self)
              have h := hend m
              have h' := hend m'
              omega
        · exact fun h => h.2 [] m ms rfl hends
      · rw [le_stopIn_iff horder hsize]
        refine and_congr_right fun _ => ⟨fun h before m' behind hcut hends' => ?_,
          fun h before m' behind hcut hends' =>
            h (m :: before) m' behind (by rw [hcut]; rfl) hends'⟩
        cases before with
        | nil =>
            obtain ⟨rfl, -⟩ := List.cons.inj hcut
            exact absurd hends' hends
        | cons x before =>
            obtain ⟨rfl, rfl⟩ := List.cons.inj hcut
            exact h before m' behind rfl hends'

theorem le_statementStop_iff : k ≤ statementStop t n ↔ k ≤ Text.size t ∧
    ∀ before m behind, marks t n = before ++ m :: behind →
      Ends t (before.foldl depthBehind 0) m → k ≤ endAt m :=
  le_stopIn_iff (pairwise_marksFrom .start n _) fun m hm => by
    obtain ⟨p, q, ht, hoffset, -⟩ := exists_of_mem_marks hm
    have hpos := m.char.utf8Size_pos
    rw [ht, hoffset, Text.size_append, Text.size]
    omega

theorem stopIn_skip (hk : m.kind ≠ .code) (hm : m.kind = .literal ∨ m.char ≠ '\n') :
    stopIn t depth (m :: ms) = stopIn t depth ms := by
  have hends : ¬ Ends t depth m := by
    rintro ⟨-, ⟨-, hcode⟩ | ⟨hfeed, hliteral, -⟩⟩
    · exact hk hcode
    · exact hm.elim hliteral fun h => h hfeed
  rw [stopIn_cons, if_neg hends, depthBehind, if_pos (bne_iff_ne.mpr hk)]

/-- A statement ends with the text, in code behind a semicolon, or outside of strings in front of a
line feed. -/
theorem exists_stopIn (t : Text) : ∀ (u : Text) {s : State} {n : Nat} {depth : Int},
    n + Text.size u = Text.size t → ∃ w v ms σ, u = w ++ v ∧
      stopIn t depth (marksFrom s n u) = n + Text.size w ∧ Reads v s n w ms σ ∧
      (v = [] ∨ σ.mode = .code ∨ ∃ v', v = '\n' :: v' ∧ σ.inString = false)
  | [], s, n, depth, hsize => ⟨[], [], [], s, rfl, hsize.symm, .nil, .inl rfl⟩
  | c :: u, s, n, depth, hsize => by
      rw [Text.size, ← Nat.add_assoc] at hsize
      cases htakes : (s.step c u.head?).takesNext with
      | false =>
          rw [marksFrom_one n htakes, stopIn_cons]
          split_ifs with hends
          · obtain ⟨-, ⟨rfl, hcode⟩ | ⟨rfl, hkind, -⟩⟩ := hends
            · refine ⟨[';'], u, _, _, rfl, rfl, .one (Step.eq_mk rfl htakes) .nil, .inr (.inl ?_)⟩
              exact State.mode_of_step_code hcode
            · exact ⟨[], _, [], s, rfl, rfl, .nil,
                .inr (.inr ⟨u, rfl, State.inString_of_step hkind⟩)⟩
          · obtain ⟨w, v, ms, σ, rfl, hstop, hreads, hend⟩ := @exists_stopIn t u
              (s.step c u.head?).state _ (depthBehind depth ⟨n, c, (s.step c u.head?).kind⟩) hsize
            exact ⟨c :: w, v, _, σ, rfl, by rw [hstop, Text.size, Nat.add_assoc],
              .one (Step.eq_mk rfl htakes) hreads, hend⟩
      | true =>
          match u, htakes, hsize with
          | [], htakes, _ =>
              rw [List.head?_nil, State.step_none] at htakes
              cases htakes
          | d :: u, htakes, hsize =>
              rw [Text.size, ← Nat.add_assoc] at hsize
              obtain ⟨hkind, hfeed⟩ := State.of_takesNext htakes
              obtain ⟨w, v, ms, σ, rfl, hstop, hreads, hend⟩ :=
                @exists_stopIn t u (s.step c (some d)).state _ depth hsize
              refine ⟨c :: d :: w, v, _, σ, rfl, ?_, .two (Step.eq_mk rfl htakes) hreads, hend⟩
              rw [marksFrom_two n htakes, stopIn_skip hkind (hfeed.imp_right fun h => h.1),
                stopIn_skip hkind (hfeed.imp_right fun h hd => h.2 (congrArg some hd)), hstop]
              simp only [Text.size, Nat.add_assoc]

/-! ## The stretch that is removed -/

/-- The end of what goes with a schema: behind its statement, the blanks behind that and the end of
the line. -/
def removedStop (t : Text) (n : Nat) : Nat :=
  let stop := behindIndent t (statementStop t n)
  (behindLineEnd? t stop).getD stop

theorem removeSchema_eq (h : t.IsBoundary n) :
    removeSchema t n = t.splice (t.lineStart n) (removedStop t n) [] := by
  have hplace : Bounds t (t.lineStart n) (t.lineStart n) :=
    ⟨Nat.le_refl _, (Text.bounds_lineStart h).start, (Text.bounds_lineStart h).start⟩
  have hnone : t.between (t.lineStart n) (t.lineStart n) = [] :=
    Text.eq_nil_of_size (by have := Text.size_between hplace; omega)
  rw [removeSchema, removeSpan, removedStop, Text.lineStart_lineStart h, hnone, if_pos (by rfl)]
  cases behindLineEnd? t (behindIndent t (statementStop t n)) <;> rfl

/-- Behind the end of a statement blanks and a line end go, be it a line feed that the statement
ends in front of. -/
theorem exists_trail {p v : Text} (hstop : statementStop (p ++ v) n = Text.size p) :
    ∃ blanks rest, v = blanks ++ rest ∧
      removedStop (p ++ v) n = Text.size p + Text.size blanks ∧
      (∀ c ∈ blanks, isFlat c = true ∧ isPlain c = true) ∧
      ∀ v', v = '\n' :: v' → blanks = ['\n'] := by
  have hindent : ∀ c ∈ v.takeWhile Text.isIndent, isFlat c = true ∧ isPlain c = true := by
    intro c hc
    have hc := List.mem_takeWhile_imp hc
    simp only [Text.isIndent, Bool.or_eq_true, beq_iff_eq] at hc
    rcases hc with rfl | rfl <;> decide
  obtain ⟨a, r, hcut, ha⟩ : ∃ a r, v = a ++ r ∧ v.takeWhile Text.isIndent = a :=
    ⟨_, _, List.takeWhile_append_dropWhile.symm, rfl⟩
  have hat : behindIndent (p ++ v) (Text.size p) = Text.size (p ++ a) := by
    rw [behindIndent, Text.after_append, Text.size_append, ha]
  have hafter : (p ++ v).after (Text.size (p ++ a)) = r := by
    rw [hcut, ← List.append_assoc, Text.after_append]
  have hfeed : ∀ v', v = '\n' :: v' → a = [] ∧ r = '\n' :: v' := fun v' hv => by
    subst hv
    obtain rfl : [] = a := ha
    exact ⟨rfl, hcut.symm⟩
  have hends : ∀ c ∈ ['\r', '\n'], isFlat c = true ∧ isPlain c = true := by decide
  rw [ha] at hindent
  rw [removedStop, hstop, hat, behindLineEnd?, hafter]
  split
  · next r' =>
      refine ⟨a ++ ['\r', '\n'], r', by rw [hcut]; simp, ?_, ?_, fun v' hv => ?_⟩
      · simp only [Option.getD_some, Text.size_append, Nat.add_assoc]
        rfl
      · intro c hc
        exact (List.mem_append.mp hc).elim (hindent c) (hends c)
      · cases (hfeed v' hv).2
  · next r' =>
      refine ⟨a ++ ['\n'], r', by rw [hcut]; simp, ?_, ?_, fun v' hv => ?_⟩
      · simp only [Option.getD_some, Text.size_append, Nat.add_assoc]
        rfl
      · intro c hc
        exact (List.mem_append.mp hc).elim (hindent c) fun hc => hends c (List.mem_cons_of_mem _ hc)
      · rw [(hfeed v' hv).1]
        rfl
  · refine ⟨a, [], hcut, by rw [Option.getD_some, Text.size_append], hindent, fun v' hv => ?_⟩
    cases (hfeed v' hv).2
  · refine ⟨a, r, hcut, by rw [Option.getD_none, Text.size_append], hindent, fun v' hv => ?_⟩
    next hother _ => exact absurd (hfeed v' hv).2 (hother v')

/-- The statement that goes, from the name of the schema on. -/
def statement (t : Text) (n : Nat) : Text := t.between n (statementStop t n)

/-- Behind a statement that does not end in a block comment, what goes with it leads into code. -/
theorem exists_reads_trail {s σ : State} {blanks rest : Text} (hmode : s.mode = σ.mode)
    (hend : blanks ++ rest = [] ∨ σ.mode = .code ∨
      ∃ v, blanks ++ rest = '\n' :: v ∧ σ.inString = false)
    (hblanks : ∀ c ∈ blanks, isFlat c = true ∧ isPlain c = true)
    (hfeed : ∀ v, blanks ++ rest = '\n' :: v → blanks = ['\n'])
    (hblock : σ.mode ≠ .blockComment) (n : Nat) :
    ∃ ms s', Reads rest s n blanks ms s' ∧ (rest = [] ∨ s'.mode = .code) ∧
      ∀ c ∈ codeText ms, isPlain c = true := by
  have hcode : s.mode = .code → ∃ ms s', Reads rest s n blanks ms s' ∧
      (rest = [] ∨ s'.mode = .code) ∧ ∀ c ∈ codeText ms, isPlain c = true := fun hs => by
    obtain ⟨ms, hms, htext⟩ := reads_flat hs rest blanks n fun c hc => (hblanks c hc).1
    exact ⟨ms, s, hms, .inr hs, fun c hc => (hblanks c (htext ▸ hc)).2⟩
  rcases hend with hnil | hσ | ⟨v, hv, hstring⟩
  · obtain ⟨rfl, rfl⟩ := List.append_eq_nil_iff.mp hnil
    exact ⟨[], s, .nil, .inl rfl, fun c hc => by cases hc⟩
  · exact hcode (hmode.trans hσ)
  · obtain rfl := hfeed v hv
    cases hσ : σ.mode with
    | code => exact hcode (hmode.trans hσ)
    | blockComment => exact absurd hσ hblock
    | string quote => simp [State.inString, hσ] at hstring
    | lineComment =>
        have hstep : s.step '\n' rest.head? = ⟨.comment, { s with mode := .code }, false⟩ := by
          simp [State.step, hmode.trans hσ, State.stepLineComment]
        exact ⟨_, _, .one hstep .nil, .inr rfl, fun c hc => by cases hc⟩

/-- Where a statement closes nothing that it does not open, and does not end at a line feed in a
block comment, the text goes on in code behind what goes with it, and that closes nothing else
either. -/
theorem goes_on_in_code {p q : Text} {c : Char} (hcode : InCode p c)
    (hclosed : (Depths.zero.trackAll
      (codeText (marksFrom .start 0 (statement (p ++ c :: q) (Text.size p))))).isSome = true)
    (hblock : (State.start.after (statement (p ++ c :: q) (Text.size p))).mode ≠ .blockComment) :
    (removedStop (p ++ c :: q) (Text.size p) = Text.size (p ++ c :: q) ∨
        CodePlace (p ++ c :: q) (removedStop (p ++ c :: q) (Text.size p))) ∧
      (Depths.zero.trackAll ((blank (p ++ c :: q)).between (Text.size p)
        (removedStop (p ++ c :: q) (Text.size p)))).isSome = true := by
  obtain ⟨ms₀, s₀, hs₀, hreads₀⟩ := hcode
  obtain ⟨w, v, ms, σ, hcut, hstop, hreads, hend⟩ := @exists_stopIn (p ++ c :: q) (c :: q) .start
    (Text.size p) 0 (Text.size_append _ _).symm
  have hmarks : marks (p ++ c :: q) (Text.size p) = marksFrom .start (Text.size p) (c :: q) := by
    rw [marks, Text.after_append]
  have hfront := hreads₀ q
  rw [← hmarks, ← Text.size_append] at hstop
  change statementStop _ _ = _ at hstop
  rw [statement, hstop] at hclosed hblock
  rw [hcut] at hclosed hblock hstop hfront ⊢
  rw [Text.size_append, ← List.append_assoc, Text.between_append] at hclosed hblock
  rw [hreads.after_alone] at hblock
  obtain ⟨d, hd⟩ := Option.isSome_iff_exists.mp hclosed
  rw [codeText_marksFrom w .start 0 (Text.size p), ← hreads.eq_marksFrom] at hd
  obtain ⟨s', hwhole, hin⟩ := hreads.inside (k := s₀.regions.head?.getD 0)
    (inside_start ⟨rfl, rfl⟩ hs₀ fun d hd => by rw [Option.mem_def.mp hd]; rfl) hd (Nat.zero_le _)
  rw [← List.append_assoc] at hstop ⊢
  obtain ⟨blanks, rest, rfl, hremoved, hblanks, hfeed⟩ := exists_trail hstop
  obtain ⟨ms', s'', htail, hmode, hplain⟩ :=
    exists_reads_trail hin.1 hend hblanks hfeed hblock (Text.size p + Text.size w)
  have hbehind := hwhole.append htail
  rw [← Nat.zero_add (Text.size p)] at hbehind
  rw [← List.append_assoc] at hfront
  have htext : p ++ w ++ (blanks ++ rest) = p ++ (w ++ blanks) ++ rest := by simp
  have hremoved' : removedStop (p ++ w ++ (blanks ++ rest)) (Text.size p) =
      Text.size p + Text.size (w ++ blanks) := by
    rw [hremoved, Text.size_append, Text.size_append, Nat.add_assoc]
  rw [hremoved', htext]
  constructor
  · rcases hmode with rfl | hmode
    · exact .inl (by simp only [List.append_nil, Text.size_append])
    · exact .inr ⟨p ++ (w ++ blanks), rest, _, s'', rfl, (Text.size_append _ _).symm,
        hfront.append hbehind, hmode⟩
  · rw [hfront.between_blank hbehind, trackAll_blank, codeText_append, Depths.trackAll_append, hd,
      Option.bind_some, trackAll_plain d hplain]
    rfl

/-! ## Declarations of schemas -/

/-- A declaration goes from the start of its line over plain text to the name, and on to a dot. -/
theorem exists_declaration {b : Text} {m : Match} {g : Capture}
    (hm : m ∈ Rule.schemaDeclaration.all b) (hg : m.group? 1 = some g) :
    ∃ front lead c rest back, b = front ++ lead ++ c :: (rest ++ '.' :: back) ∧
      m.start = Text.size front ∧ g.start = Text.size (front ++ lead) ∧
      m.stop = Text.size (front ++ lead ++ c :: (rest ++ ['.'])) ∧
      (∀ d ∈ lead, isPlain d = true) ∧ c ≠ ' ' ∧ c ≠ '\n' := by
  obtain ⟨front, back, rfl, hstart, hstop, hleads⟩ := exists_leads_of_mem_all hm
  obtain ⟨e, _, _, h₁, he, hline, hleads⟩ := leads_past_seq hleads
  obtain ⟨blanks, _, _, rfl, hblanks, hindent, hleads⟩ := leads_past_seq hleads
  obtain ⟨k, _, _, rfl, hk, hconst, hleads⟩ := leads_past_seq hleads
  obtain ⟨spaces, _, cs, rfl, hspaces, hgap, hleads⟩ := leads_past_seq hleads
  obtain rfl : cs = [] :=
    (hgap.captures_eq rfl).trans ((hconst.captures_eq rfl).trans ((hindent.captures_eq rfl).trans
      (hline.captures_eq rfl)))
  cases hleads with
  | seq hname hend =>
      obtain ⟨w, _, rfl, hw, rfl⟩ := leads_past_capture hname rfl
      obtain ⟨v, back', _, rfl, hpast, hv⟩ := hend.past rfl
      obtain ⟨rest, dot, rfl, hdot⟩ := @spells_last _ [_, _, _, _, _, _] _ hv
      obtain ⟨hne, hchars⟩ := spells_name hw
      obtain ⟨c, w, rfl⟩ := List.exists_cons_of_ne_nil hne
      obtain rfl : e = [] := by
        cases he
        rfl
      obtain rfl : dot = ['.'] := spells_literal hdot
      obtain ⟨-, hsize, rfl⟩ := Cursor.mk.inj (Reading.mk.inj hpast).1
      rw [Match.group?, show m.captures = _ from hend.captures_eq rfl] at hg
      obtain rfl := Option.some.inj hg
      refine ⟨front, blanks ++ (k ++ spaces), c, w ++ rest, back, ?_, hstart, ?_, ?_, ?_, ?_⟩
      · rw [h₁]
        simp
      · simp [Capture.past]
      · rw [hstop, hsize]
        simp
      · have hindent : indent.Only isPlain := fun c hc => by
          simp only [List.contains_iff_mem] at hc
          exact (by decide : ∀ c ∈ " \t".toList, isPlain c = true) c hc
        have hgap : gap.Only isPlain := ⟨fun _ hc => (isPlain_of_isSpace hc).2.1, fun _ hc =>
          (isPlain_of_isSpace hc).2.1⟩
        have hconst : (Pattern.word "const").Only isPlain := only_literal (by decide)
        simp only [List.forall_mem_append]
        exact ⟨hindent.of_spells hblanks, hconst.of_spells hk, hgap.of_spells hspaces⟩
      · have hc := hchars c List.mem_cons_self
        constructor <;> rintro rfl <;> exact absurd hc (by decide)

/-! ## Whole declarations -/

/-- A declaration goes as a whole with its name: up to the name it is on one line, nothing ends the
statement in front of its end, and the statement by itself ends outside of block comments and closes
nothing that it does not open. -/
structure Whole (t : Text) (m : Match) (n : Nat) : Prop where
  sameLine : '\n' ∉ t.between m.start n
  unended : ∀ before m' behind, marks t n = before ++ m' :: behind →
    Ends t (before.foldl depthBehind 0) m' → m.stop ≤ endAt m'
  uncommented : (State.start.after (statement t n)).mode ≠ .blockComment
  closed : (Depths.zero.trackAll (codeText (marksFrom .start 0 (statement t n)))).isSome = true

/-- A stretch takes a whole declaration and nothing of what stands around it: it covers the match,
it ends with the text or in code, and no bracket in its code closes one in front of it. -/
structure Takes (t : Text) (m : Match) (start stop : Nat) : Prop where
  start_le : start ≤ m.start
  le_stop : m.stop ≤ stop
  inCode : stop = Text.size t ∨ CodePlace t stop
  closesOwn : (Depths.zero.trackAll ((blank t).between start stop)).isSome = true

theorem statementStop_le_removedStop (t : Text) (n : Nat) :
    statementStop t n ≤ removedStop t n := by
  have hindent := le_behindIndent t (statementStop t n)
  rw [removedStop]
  cases hend : behindLineEnd? t (behindIndent t (statementStop t n)) with
  | none => exact hindent
  | some k => exact Nat.le_trans hindent (le_behindLineEnd? hend)

theorem exists_blank_front {p : Text} {c : Char} (h : InCode p c) :
    ∃ b, Text.size b = Text.size p ∧ ∀ q, ∃ b', blank (p ++ c :: q) = b ++ b' := by
  obtain ⟨ms, s, -, hreads⟩ := h
  refine ⟨ms.flatMap Mark.blank, ?_, fun q =>
    ⟨(marksFrom s (Text.size p) (c :: q)).flatMap Mark.blank, ?_⟩⟩
  · rw [size_flatMap_markBlank, (hreads []).map_char]
  · rw [blank, marks_cut (hreads q), List.flatMap_append]

theorem agree_declaration {before behind : List (Text × Nat)} {x : Text × Nat} {m : Match}
    {g : Capture} (h : unused t = before ++ x :: behind)
    (hm : m ∈ Rule.schemaDeclaration.all (blank t)) (hg : m.group? 1 = some g)
    (hx : g.start = x.2) : Agree m.stop t (removeSchemas behind t) := by
  obtain ⟨front, lead, c, rest, back, hcut, -, -, hstop, -⟩ := exists_declaration hm hg
  have hplace : t.IsBoundary m.stop := by
    obtain ⟨p, q, rfl, hp⟩ := exists_of_blank (c := '.') (u := front ++ lead ++ c :: rest)
      (v := back)
      (by decide) (by rw [hcut]; simp)
    have hsize : m.stop = Text.size (p ++ ['.']) := by
      rw [hstop, Text.size_append p, hp, ← Text.size_append]
      simp
    rw [hsize, ← List.singleton_append, ← List.append_assoc]
    exact Text.isBoundary_append _ q
  have hunused : Rule.unusedSchemas (blank t) = (before ++ [x]) ++ behind := by
    rw [← unused, h]
    simp
  refine agree_removeSchemas_of_le hunused hplace fun y hy => ?_
  have horder := pairwise_declarations t
  rw [← unused, h] at horder
  obtain ⟨m', hm', g', hg', hx', hle⟩ :=
    (List.pairwise_cons.mp (List.pairwise_append.mp horder).2.1).1 y hy
  have hinside : ∀ {m : Match} {g : Capture}, m ∈ Rule.schemaDeclaration.all (blank t) →
      m.group? 1 = some g → m.start ≤ g.start ∧ g.start < m.stop := fun hm hg => by
    obtain ⟨front, lead, c, rest, back, -, hstart, hname, hstop, -⟩ := exists_declaration hm hg
    have hpos := c.utf8Size_pos
    rw [hstart, hname, hstop]
    simp only [Text.size_append, Text.size]
    omega
  obtain rfl : m = m' := eq_of_covering hm hm' (hinside hm hg) (by
    rw [hx, ← hx']
    exact hinside hm' hg')
  exact hle

/-- What a schema takes with it when the schemas behind it are gone. -/
theorem takes_step {before behind : List (Text × Nat)} {x : Text × Nat} {m : Match} {g : Capture}
    (h : unused t = before ++ x :: behind) (hm : m ∈ Rule.schemaDeclaration.all (blank t))
    (hg : m.group? 1 = some g) (hx : g.start = x.2)
    (hwhole : Whole (removeSchemas behind t) m x.2) :
    Takes (removeSchemas behind t) m ((removeSchemas behind t).lineStart x.2)
      (removedStop (removeSchemas behind t) x.2) := by
  have hagree := agree_declaration h hm hg hx
  obtain ⟨front, lead, c, rest, back, hcut, hstart, hname, hstop, hlead, hspace, hfeed⟩ :=
    exists_declaration hm hg
  obtain ⟨p, q, rfl, hp, hcode⟩ := inCode_of_blank hspace hfeed hcut
  have hline := startsLine_of_blank (startsLine_of_mem_all hm)
  obtain ⟨b, hb, hblank⟩ := exists_blank_front hcode
  have hn : x.2 = Text.size p := by rw [← hx, hname, hp]
  rw [hn] at hwhole ⊢
  generalize removeSchemas behind (p ++ c :: q) = left at hagree hwhole ⊢
  obtain ⟨r, rfl⟩ : ∃ r, left = p ++ c :: r := by
    rw [← List.singleton_append, ← List.append_assoc] at hagree
    obtain ⟨r, rfl⟩ := (hagree.mono (Text.isBoundary_append _ q) (by
      rw [hstop, Text.size_append, Text.size_append (front ++ lead), hp]
      simp only [Text.size]
      omega)).exists_rest
    exact ⟨r, by simp⟩
  obtain ⟨hin, htrack⟩ := goes_on_in_code hcode hwhole.closed hwhole.uncommented
  have hstatement := statementStop_le_removedStop (p ++ c :: r) (Text.size p)
  -- what stands in front of the name is the same in the blanked text
  obtain rfl : front ++ lead = b := by
    obtain ⟨b', hb'⟩ := hblank q
    exact (Text.append_inj_of_size (hcut.symm.trans hb') (hp.symm.trans hb.symm)).1
  -- the line of the declaration starts at its start
  have hstart' : (p ++ c :: r).lineStart (Text.size p) = m.start := by
    obtain ⟨front', back', hcut', hsize, hlast⟩ := hline
    obtain ⟨w, rfl, -⟩ := Text.exists_middle hcut'.symm (by
      rw [← hsize, hstart, hp, Text.size_append]
      omega)
    have hfeed := hwhole.sameLine
    rw [hsize, Text.size_append, Text.between_append] at hfeed
    rw [Text.lineStart_append hlast hfeed, hsize]
  rw [hstart']
  refine ⟨Nat.le_refl _, Nat.le_trans ?_ hstatement, hin, ?_⟩
  · exact le_statementStop_iff.mpr ⟨hagree.right.le_size, hwhole.unended⟩
  · have hplace : (p ++ c :: r).IsBoundary (removedStop (p ++ c :: r) (Text.size p)) := by
      rcases hin with hend | ⟨p', q', -, -, hcut', hend, -⟩
      · rw [hend]
        exact Text.isBoundary_size _
      · rw [hend, hcut']
        exact Text.isBoundary_append p' q'
    have hbounds : Bounds (p ++ c :: r) (Text.size p) (removedStop (p ++ c :: r) (Text.size p)) :=
      ⟨Nat.le_trans (le_statementStop (Text.isBoundary_append p _)) hstatement,
        Text.isBoundary_append p _, hplace⟩
    obtain ⟨u, w, v, hcut', hu, hw⟩ := Text.bounds_iff.mp (bounds_blank hbounds)
    obtain ⟨b', hb'⟩ := hblank r
    obtain ⟨rfl, -⟩ := Text.append_inj_of_size
      ((List.append_assoc _ _ _).symm.trans (hcut'.symm.trans hb')) (hu.symm.trans hp)
    have hstop' : Text.size (front ++ lead) + Text.size w = Text.size front +
        Text.size (lead ++ w) := by
      simp only [Text.size_append, Nat.add_assoc]
    rw [hcut', hw, hu, Text.between_append] at htrack
    rw [hcut', hw, hstart, hstop', List.append_assoc front, Text.between_append,
      Depths.trackAll_append, trackAll_plain _ hlead]
    exact htrack

/-- In every pass, a schema whose declaration goes as a whole takes that with it, as it was found,
and nothing of what stands around. -/
theorem takes_of_whole {passes : Nat} {before behind : List (Text × Nat)} {x : Text × Nat}
    {left : Text} {m : Match} {g : Capture}
    (h : unused (removeSchemaPasses passes t) = before ++ x :: behind)
    (hm : m ∈ Rule.schemaDeclaration.all (blank (removeSchemaPasses passes t)))
    (hg : m.group? 1 = some g) (hx : g.start = x.2)
    (hleft : left = removeSchemas behind (removeSchemaPasses passes t))
    (hwhole : Whole left m x.2) :
    removeSchemas (x :: behind) (removeSchemaPasses passes t) =
        left.splice (left.lineStart x.2) (removedStop left x.2) [] ∧
      left.between m.start m.stop = (removeSchemaPasses passes t).between m.start m.stop ∧
      Takes left m (left.lineStart x.2) (removedStop left x.2) := by
  subst hleft
  have hagree := agree_declaration h hm hg hx
  have hbounds : Bounds (removeSchemaPasses passes t) m.start m.stop :=
    ⟨by rw [(in_of_mem_all hm).stop]; exact Nat.le_add_right _ _,
      (startsLine_of_blank (startsLine_of_mem_all hm)).isBoundary, hagree.left⟩
  exact ⟨(removeSchemas_cons x behind _).trans (removeSchema_eq (agree_removeSchemas h).right),
    hagree.between_eq hbounds, takes_step h hm hg hx hwhole⟩

def spreadDeclaration : Text := "const A = z\n  .b(c);\nf();\n".toList

def spreadMatch : Match := ⟨0, 15, "const A = z\n  .".toList, [⟨1, 6, 7, ['A']⟩]⟩

theorem takes_of_whole_spread : unused spreadDeclaration = [(['A'], 6)] ∧
    removeSchemas [(['A'], 6)] spreadDeclaration = "f();\n".toList ∧
    Takes spreadDeclaration spreadMatch 0 21 := by
  have hunused : unused (removeSchemaPasses 0 spreadDeclaration) = [] ++ (['A'], 6) :: [] := by
    decide
  have hwhole : Whole spreadDeclaration spreadMatch 6 :=
    ⟨by decide, (le_statementStop_iff.mp (by decide)).2, by decide, by decide⟩
  have htakes := (takes_of_whole hunused (by decide) rfl rfl rfl hwhole).2.2
  exact ⟨hunused, by decide, htakes⟩

theorem not_always_whole : ¬ ∀ (t : Text) (x : Text × Nat) (m : Match) (g : Capture),
    unused t = [x] →
    m ∈ Rule.schemaDeclaration.all (blank t) → m.group? 1 = some g → g.start = x.2 →
      Takes t m (t.lineStart x.2) (removedStop t x.2) := by
  intro h
  have htakes := h "const A =\n  z.string();\n".toList (['A'], 6)
    ⟨0, 14, "const A =\n  z.".toList, [⟨1, 6, 7, ['A']⟩]⟩ ⟨1, 6, 7, ['A']⟩ (by decide)
    (by decide) rfl rfl
  exact absurd htakes.le_stop (by decide)

end Repair

end ServiceGate
