/-
# Whole values

A literal is divided at the commas in code outside of groups, and the braces of a template's region
are no group: a comma in a region divides the literal as well.  A value is balanced exactly if its
piece is, since up to the value a piece is smooth and behind it there is white space
(`Shape.balanced_value`).  And where there is balance between the braces, all pieces are balanced
exactly if none starts inside of a region (`balanced_of_undivided`, `undivided_of_balanced`).  So an
undivided literal has balanced values (`wholeValues_of_undivided`), and one that is divided in a
region need not have any.
-/
import ServiceGate.Proofs.Balanced.Edits
import ServiceGate.Proofs.ObjectLiteral.Appended
import ServiceGate.Proofs.ObjectLiteral.Spans

namespace ServiceGate

open Scan

variable {t u v w x y p : Text} {ps : List Text} {s : State} {c d : Char} {n : Nat} {z : Nat × Nat}
  {e : ObjectEntry} {o : ObjectLiteral}

/-! ## White space at the end -/

namespace Scan

theorem State.step_spaced (hd : CharClass.isSpace d = true) (s : State) (c : Char) :
    s.step c (some d) = s.step c none ∨
      s.step c (some d) = ⟨.literal, s, true⟩ ∧ s.step c none = ⟨.literal, s, false⟩ := by
  have hne : ∀ sign ∈ CharClass.signs, (some d == some sign) = false := fun sign hsign => by
    rw [beq_eq_false_iff_ne]
    rintro h
    exact CharClass.notMem_signs_of_isSpace hd (Option.some.inj h ▸ hsign)
  have hslash := hne '/' (by decide)
  have hbrace := hne '\x7b' (by decide)
  have hstar : (some d == some '*') = false := by
    rw [beq_eq_false_iff_ne]
    rintro h
    exact absurd (Option.some.inj h ▸ hd) (by decide)
  cases hs : s.mode with
  | lineComment => simp [State.step, hs, State.stepLineComment]
  | blockComment => simp [State.step, hs, State.stepBlockComment, hslash]
  | code => simp [State.step, hs, State.stepCode, hslash, hstar]
  | string quote =>
      by_cases hc : c = '\\'
      · exact .inr (by simp [State.step, hs, State.stepString, hc])
      · simp [State.step, hs, State.stepString, hc, hbrace]

namespace Alike

theorem trans {t' : Text} (h : Alike s t u) (h' : Alike s u t') : Alike s t t' :=
  ⟨fun d => (h.trackAll d).trans (h'.trackAll d), h.inLiteral.trans h'.inLiteral⟩

theorem space (hd : CharClass.isSpace d = true) : ∀ (u : Text) {s : State}, s.Quoted →
    Alike s (u ++ [d]) u
  | [], s, hs => by
      have hplain := (isPlain_of_isSpace hd).2.1
      refine ⟨fun depths => ?_, ?_⟩
      · rw [List.nil_append, marksFrom_one (t := []) 0 (State.step_none s d), codeText_cons]
        split_ifs
        · exact trackAll_plain depths (by simpa [marksFrom, codeText] using hplain)
        · rfl
      · change (s.step d none).state.inLiteral = s.inLiteral
        cases hin : s.inString with
        | true => rw [State.step_space hs hin hd]
        | false =>
            obtain ⟨hregions, hstring⟩ := @State.step_idle s d none hin (.inr hd)
            rw [State.inLiteral, State.inLiteral, hregions, hstring, hin]
  | [c], s, hs => by
      rcases State.step_spaced hd s c with heq | ⟨htwo, hone⟩
      · have hstep : s.step c none = ⟨(s.step c none).kind, (s.step c none).state, false⟩ :=
          Step.eq_mk rfl (State.step_none s c)
        exact (space hd [] (hs.step c none)).append (p := [c]) (n := 0)
          (.one (heq.trans hstep) .nil) (.one hstep .nil)
      · have hmarks : marksFrom s 0 [c, d] = [⟨0, c, .literal⟩, ⟨0 + c.utf8Size, d, .literal⟩] := by
          rw [marksFrom_two 0 (by rw [htwo]), htwo]
          rfl
        refine ⟨fun depths => ?_, ?_⟩
        · rw [List.singleton_append, hmarks, marksFrom, hone]
          rfl
        · rw [List.singleton_append, State.after_two (by rw [htwo]), htwo,
            State.after_one (t := []) (by rw [List.head?_nil, hone]), List.head?_nil, hone]
  | c :: c' :: u, s, hs => by
      cases htakes : (s.step c (some c')).takesNext with
      | true =>
          have hstep := Step.eq_mk rfl htakes
          exact (space hd u (hs.step c (some c'))).append (p := [c, c']) (n := 0) (.two hstep .nil)
            (.two hstep .nil)
      | false =>
          have hstep := Step.eq_mk rfl htakes
          exact (space hd (c' :: u) (hs.step c (some c'))).append (p := [c])
            (n := 0) (.one hstep .nil)
            (.one hstep .nil)

end Alike

theorem balanced_append_spaces (u : Text) (hv : Spaces v) : balanced (u ++ v) = balanced u := by
  refine Alike.balanced_eq ?_
  induction v using List.reverseRecOn with
  | nil =>
      rw [List.append_nil]
      exact ⟨fun _ => rfl, rfl⟩
  | append_singleton v d ih =>
      rw [← List.append_assoc]
      exact (Alike.space (hv d (by simp)) (u ++ v) State.quoted_start).trans
        (ih fun c hc => hv c (List.mem_append_left _ hc))

theorem balanced_iff : balanced t = true ↔
    Depths.zero.trackAll (codeText (marksFrom .start 0 t)) = some .zero ∧
      (State.start.after t).inLiteral = false := by
  have hcode : (codeChars t 0).map (·.2) = codeText (marksFrom .start 0 t) := by
    rw [codeChars_eq, marks_zero, codeText]
  rw [balanced, Bool.and_eq_true, beq_iff_eq, Bool.not_eq_true', hcode, finalState]

theorem Unbroken.balanced (h : Unbroken p) : balanced p = true :=
  balanced_iff.mpr ⟨Depths.trackAll_of_within h.within, h.ends.inLiteral_eq⟩

end Scan

/-! ## A value in its piece -/

/-- A value is balanced exactly if its piece is. -/
theorem ObjectEntry.Shape.balanced_value (h : Shape p e) : balanced (e.value p) = balanced p := by
  obtain ⟨front, v, trail, rfl, hstart, hstop, hfront, htrail⟩ := h.spans
  rw [value, hstart, hstop, Text.size_append, Text.between_append, balanced_append_spaces _ htrail,
    balanced_append hfront.closed]

namespace ObjectLiteral

theorem exists_piece_of_entry (h : readAt? t n = some o) (he : e ∈ o.entries) :
    ∃ z ∈ pieces o.closeAt 0 (o.openAt + 1) (marks t (o.openAt + 1)),
    ObjectEntry.read? t z.1 z.2 = some e ∧
      balanced (e.value t) = balanced (t.between z.1 z.2) := by
  obtain ⟨hopen, -⟩ := matchingClose?_of_readAt? h
  rw [entries_of_readAt? h] at he
  obtain ⟨z, hz, hread⟩ := List.mem_filterMap.mp he
  obtain ⟨x, front, w, rest, -, -, e', rfl, rfl, hstart, hstop, -, -, -, hshape, rfl⟩ :=
    exists_shape h hz hread
  refine ⟨z, by rwa [hopen], hread, ?_⟩
  have htext : x ++ '\x7b' :: (front ++ (w ++ rest)) = (x ++ '\x7b' :: front) ++ w ++ rest := by
    simp
  have hsize : z.1 = Text.size (x ++ '\x7b' :: front) := hstart.trans (size_opened x front).symm
  rw [hstop, htext, hsize, Text.between_append, ← hshape.balanced_value,
    ObjectEntry.value_moved (ObjectEntry.valueStop_le hshape.ofPiece?_eq)]

/-! ## Pieces that are whole -/

theorem exists_of_mem_spans : ∀ {ps : List Text} {n : Nat}, z ∈ spans n ps → ∃ ps₁ p ps₂,
    ps = ps₁ ++ p :: ps₂ ∧ z.1 = n + Text.size (ps₁.flatMap (· ++ [','])) ∧ z.2 = z.1 + Text.size p
  | p :: ps, n, hz => by
      rcases List.mem_cons.mp hz with rfl | hz
      · exact ⟨[], p, ps, rfl, rfl, rfl⟩
      · obtain ⟨ps₁, q, ps₂, rfl, hstart, hstop⟩ := exists_of_mem_spans hz
        refine ⟨p :: ps₁, q, ps₂, rfl, ?_, hstop⟩
        rw [hstart, List.flatMap_cons, Text.size_append, Text.size_append, Nat.add_assoc,
          Nat.add_assoc, Nat.add_assoc]
        rfl

/-- A piece starts with the literal, or behind the comma that ends another one. -/
theorem exists_previous (close : Nat) : ∀ {ms : List Mark} {depth : Int} {start : Nat},
    z ∈ pieces close depth start ms → z.1 = start ∨
      ∃ z' ∈ pieces close depth start ms, z.1 = z'.2 + 1 ∧ ⟨z'.2, ',', .code⟩ ∈ ms
  | [], depth, start, hz => .inl (congrArg Prod.fst (List.mem_singleton.mp hz))
  | m :: ms, depth, start, hz => by
      have hmore : ∀ {depth start}, z ∈ pieces close depth start ms → z.1 = start ∨
          ∃ z' ∈ pieces close depth start ms, z.1 = z'.2 + 1 ∧ ⟨z'.2, ',', .code⟩ ∈ m :: ms :=
          fun hz =>
        (exists_previous close hz).imp_right fun ⟨z', hz', hstart, hmem⟩ =>
          ⟨z', hz', hstart, List.mem_cons_of_mem m hmem⟩
      rw [pieces] at hz ⊢
      split_ifs at hz ⊢ with hclose hkind hopen hcloser hcomma
      · exact .inl (congrArg Prod.fst (List.mem_singleton.mp hz))
      · exact hmore hz
      · exact hmore hz
      · exact hmore hz
      · have hm : m = ⟨m.offset, ',', .code⟩ := by
          obtain ⟨i, c, k⟩ := m
          have hk : k = .code := by simpa using hkind
          have hc : c = ',' := beq_iff_eq.mp (Bool.and_eq_true _ _ ▸ hcomma).1
          rw [hk, hc]
        rcases List.mem_cons.mp hz with rfl | hz
        · exact .inl rfl
        · rcases hmore hz with hstart | ⟨z', hz', hstart, hmem⟩
          · exact .inr ⟨_, List.mem_cons_self, hstart, hm ▸ List.mem_cons_self⟩
          · exact .inr ⟨z', List.mem_cons_of_mem _ hz', hstart, hmem⟩
      · exact hmore hz

theorem balanced_of_undivided (h : readAt? t n = some o)
    (hbalanced : balanced (t.between (o.openAt + 1) o.closeAt) = true) (hcut : o.Undivided t)
    (hz : z ∈ pieces o.closeAt 0 (o.openAt + 1) (marks t (o.openAt + 1))) :
    balanced (t.between z.1 z.2) = true := by
  obtain ⟨x, ps, y, rfl, rfl, hne, hps⟩ := exists_pieces h hbalanced hcut
  obtain rfl := Option.some.inj (h.symm.trans (readAt?_ofPieces hne hps x y))
  obtain ⟨-, -, -, -, hspans⟩ := exists_marks_ofPieces hne hps x y
  rw [hspans] at hz
  obtain ⟨ps₁, p, ps₂, rfl, hstart, hstop⟩ := exists_of_mem_spans hz
  obtain ⟨before, behind, htext, hsize, -⟩ := exists_around x ps₁ ps₂ y
  rw [hstop, htext, hstart, ← hsize, Text.between_append]
  exact (hps p (by simp)).balanced

theorem between_behind (x w rest : Text) : Text.between (x ++ '\x7b' :: (w ++ rest))
    (Text.size x + 1) (Text.size x + 1 + Text.size w) = w := by
  have htext : x ++ '\x7b' :: (w ++ rest) = (x ++ ['\x7b']) ++ w ++ rest := by simp
  have hsize : Text.size x + 1 = Text.size (x ++ ['\x7b']) := by
    rw [Text.size_append]
    rfl
  rw [htext, hsize, Text.between_append]

/-- Where every piece is balanced, no piece starts inside of a region. -/
theorem undivided_of_balanced (h : readAt? t n = some o)
    (hpieces : ∀ z ∈ pieces o.closeAt 0 (o.openAt + 1) (marks t (o.openAt + 1)),
      balanced (t.between z.1 z.2) = true) : o.Undivided t := by
  obtain ⟨hopen, -⟩ := matchingClose?_of_readAt? h
  rw [Undivided, hopen]
  rw [hopen] at hpieces
  intro z hz
  induction hk : z.1 using Nat.strong_induction_on generalizing z with
  | _ k ih =>
    subst hk
    rcases exists_previous o.closeAt hz with hstart | ⟨z', hz', hstart, hmem⟩
    · obtain ⟨x, front, w, rest, -, -, rfl, rfl, hfront, -⟩ := exists_piece h hz
      obtain rfl : front = [] := Text.eq_nil_of_size (by omega)
      have hnil := between_behind x [] (w ++ rest)
      rw [hfront]
      exact congrArg (fun u => (State.start.after u).regions) hnil
    · obtain ⟨x, front, w, rest, ms, σ, rfl, rfl, hfront, hstop, -, hreads, hσ⟩ :=
        exists_piece h hz'
      have hregions := ih z'.1 (by omega) z' hz' rfl
      have hwhole := hpieces z' hz'
      have hpiece : x ++ '\x7b' :: (front ++ (w ++ rest)) = (x ++ '\x7b' :: front) ++ w ++
          rest := by simp
      have hsize : z'.1 = Text.size (x ++ '\x7b' :: front) :=
        hfront.trans (size_opened x front).symm
      rw [hstop, hpiece, hsize, Text.between_append, balanced_iff] at hwhole
      rw [hfront, between_behind, hreads.after_alone] at hregions
      -- the comma is behind the piece, so the scan of the piece by itself ends in front of it
      have hmarks : marks (x ++ '\x7b' :: (front ++ (w ++ rest))) (Text.size x + 1) =
          ms ++ marksFrom σ z'.1 (w ++ rest) := by
        have hbehind := Text.after_append_cons x '\x7b' (front ++ (w ++ rest))
        rw [hfront, ← hreads.marksFrom_eq, marks]
        exact congrArg _ hbehind
      rw [hmarks] at hmem
      have hcomma := (List.mem_append.mp hmem).resolve_left fun hmem => by
        have := offset_lt_of_reads hreads _ hmem
        dsimp only at this
        omega
      obtain ⟨ms₁, ms₂, hcut⟩ := List.append_of_mem hcomma
      obtain ⟨w', q, τ, τ', hrest, hk, hpre, hstep, -⟩ := cut_marksFrom hcut
      obtain ⟨rfl, rfl⟩ := Text.append_inj_of_size hrest (by omega)
      have hτ : τ.Agrees .start := by
        have hend : (State.start.after w).Agrees τ := by
          rw [← hpre.after_alone]
          exact (State.after_agrees w ⟨hσ, hregions⟩).symm
        have hmode : τ.mode = .code := (State.of_step_code (by rw [hstep])).1
        have hliteral := hwhole.2
        rw [hend.inLiteral_eq, State.inLiteral, Bool.or_eq_false_iff, Bool.not_eq_false',
          List.isEmpty_iff] at hliteral
        exact ⟨hmode, hliteral.2⟩
      rw [step_comma hτ] at hstep
      obtain rfl := (Step.mk.inj hstep).2.1
      have hbehind : Reads q .start (Text.size x + 1) (front ++ w ++ [',']) _ τ :=
        ((hreads.append (hfront ▸ hpre)).append (.one (step_comma hτ _) .nil))
      have htext : x ++ '\x7b' :: (front ++ (w ++ ',' :: q)) =
          x ++ '\x7b' :: ((front ++ w ++ [',']) ++ q) := by simp
      have hstart' : z.1 = Text.size x + 1 + Text.size (front ++ w ++ [',']) := by
        have hcomma : Text.size [','] = 1 := rfl
        rw [hstart, hk, hfront, Text.size_append, Text.size_append, hcomma]
        omega
      rw [htext, hstart', between_behind, hbehind.after_alone]
      exact hτ.2

/-- Of a literal with balance between its braces every piece is balanced exactly if none starts
inside of a region, and an entry's value is balanced exactly if its piece is; so the values of an
undivided literal are. -/
theorem wholeValues_of_undivided (h : readAt? t n = some o)
    (hbalanced : balanced (t.between (o.openAt + 1) o.closeAt) = true) :
    (o.Undivided t ↔ ∀ z ∈ pieces o.closeAt 0 (o.openAt + 1) (marks t (o.openAt + 1)),
        balanced (t.between z.1 z.2) = true) ∧
      (∀ e ∈ o.entries, ∃ z ∈ pieces o.closeAt 0 (o.openAt + 1) (marks t (o.openAt + 1)),
        ObjectEntry.read? t z.1 z.2 = some e ∧
        balanced (e.value t) = balanced (t.between z.1 z.2)) ∧
      (o.Undivided t → ∀ e ∈ o.entries, balanced (e.value t) = true) := by
  refine ⟨⟨fun hcut z hz => balanced_of_undivided h hbalanced hcut hz, undivided_of_balanced h⟩,
    fun e he => exists_piece_of_entry h he, fun hcut e he => ?_⟩
  obtain ⟨z, hz, -, hvalue⟩ := exists_piece_of_entry h he
  rw [hvalue]
  exact balanced_of_undivided h hbalanced hcut hz

/-- A template with one comma in a group in a region and one outside of the region. -/
def grouped : Text := "x(\x7b a: \x60$\x7bf(y, z)\x7d, z\x60, b: [1, 2] \x7d)".toList

theorem wholeValues_of_undivided_grouped : ∃ o, readAt? grouped 2 = some o ∧
    o.entries.map (·.value grouped) = ["\x60$\x7bf(y, z)\x7d, z\x60".toList, "[1, 2]".toList] ∧
    ∀ e ∈ o.entries, balanced (e.value grouped) = true := by
  have hread : readAt? grouped 2 = some ⟨2, 34, [⟨['a'], 4, 7, 22⟩, ⟨['b'], 24, 27, 33⟩]⟩ := by
    decide
  exact ⟨_, hread, by decide, (wholeValues_of_undivided hread (by decide)).2.2 (by decide)⟩

/-- A comma in a region outside of groups divides the literal, though what stands between the braces
is well-nested. -/
theorem not_always_whole_values :
    ¬ ∀ (t : Text) (n : Nat) (o : ObjectLiteral) (gs : List (Nat × Nat)),
    readAt? t n = some o → WellNested (n + 1) (t.between (o.openAt + 1) o.closeAt) gs →
      ∀ e ∈ o.entries, balanced (e.value t) = true := by
  intro h
  have hread : readAt? "x(\x7b a: \x60$\x7by, b: z\x7d\x60 \x7d)".toList 2 =
      some ⟨2, 20, [⟨['a'], 4, 7, 11⟩, ⟨['b'], 13, 16, 19⟩]⟩ := by decide
  have hregion : WellNested 10 "y, b: z".toList [] :=
    .ordinary rfl rfl rfl (.ordinary rfl rfl rfl (.ordinary rfl rfl rfl (.ordinary rfl rfl rfl
      (.ordinary rfl rfl rfl (.ordinary rfl rfl rfl (.ordinary rfl rfl rfl .nil))))))
  have htemplate : WellNested 7 "\x60$\x7by, b: z\x7d\x60 ".toList [] :=
    @WellNested.template _ "$\x7by, b: z\x7d".toList _ [] _ (.region (t := []) hregion .nil)
      (.ordinary rfl rfl rfl .nil)
  have hbody : WellNested 3 " a: \x60$\x7by, b: z\x7d\x60 ".toList [] :=
    .ordinary rfl rfl rfl
    (.ordinary rfl rfl rfl (.ordinary rfl rfl rfl (.ordinary rfl rfl rfl htemplate)))
  have hwhole := h _ 2 _ [] hread hbody ⟨['a'], 4, 7, 11⟩ List.mem_cons_self
  exact absurd hwhole (by decide)

end ObjectLiteral

end ServiceGate
