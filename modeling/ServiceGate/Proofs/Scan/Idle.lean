/-
# Comments and white space

A mark is `Idle` if it is of a comment or of white space.  A run over idle marks keeps the open
regions, and it leaves no string; so text that does not count is read from code outside of templates
back into it, whatever follows (`Idle`).

A run is cut in front of the first mark that counts (`Reads.cut_first`) and behind the last one
(`Reads.cut_last`).
-/
import ServiceGate.Proofs.CharClass
import ServiceGate.Proofs.Scan.Cuts
import ServiceGate.Proofs.Scan.Unbroken

namespace ServiceGate.Scan

variable {s s' σ : State} {rest rest' t u g x : Text} {n k stop : Nat} {c d q : Char}
  {next : Option Char} {m : Mark} {ms ms₁ ms₂ : List Mark}

/-- A mark that does not count: of a comment, or white space. -/
def Mark.Idle (m : Mark) : Prop := m.kind = .comment ∨ CharClass.isSpace m.char = true

instance (m : Mark) : Decidable m.Idle := inferInstanceAs (Decidable (_ ∨ _))

theorem Mark.not_idle_iff : ¬ m.Idle ↔ (m.kind != .comment && !CharClass.isSpace m.char) =
    true := by
  rw [Mark.Idle, not_or, Bool.and_eq_true, bne_iff_ne, Bool.not_eq_true', Bool.not_eq_true]

/-! ## White space -/

theorem isPlain_of_isSpace (h : CharClass.isSpace c = true) :
    isQuote c = false ∧ isPlain c = true ∧ c ≠ '/' ∧ c ≠ ',' := by
  have hne : ∀ d ∈ CharClass.signs, c ≠ d := fun d hd heq =>
    CharClass.notMem_signs_of_isSpace h (heq ▸ hd)
  refine ⟨?_, ?_, hne '/' (by decide), hne ',' (by decide)⟩
  · simp only [isQuote, Bool.or_eq_false_iff, beq_eq_false_iff_ne]
    exact ⟨⟨hne '\'' (by decide), hne '"' (by decide)⟩, hne '\x60' (by decide)⟩
  · simp only [isPlain, isOpener, closer?, isCloser, Bool.and_eq_true, Bool.not_eq_true',
      Bool.or_eq_false_iff, beq_eq_false_iff_ne]
    refine ⟨?_, ⟨hne '\x7d' (by decide), hne ']' (by decide)⟩, hne ')' (by decide)⟩
    split
    · exact absurd rfl (hne '\x7b' (by decide))
    · exact absurd rfl (hne '[' (by decide))
    · exact absurd rfl (hne '(' (by decide))
    · rfl

namespace State

theorem step_idle (hs : s.inString = false)
    (h : (s.step c next).kind = .comment ∨ CharClass.isSpace c = true) :
    (s.step c next).state.regions = s.regions ∧ (s.step c next).state.inString = false := by
  refine ⟨?_, ((step_of_mode rfl hs c next).2.2.2 h).2⟩
  obtain ⟨mode, regions, last⟩ := s
  cases mode with
  | string quote => cases hs
  | lineComment =>
      simp only [step, stepLineComment]
      split_ifs <;> rfl
  | blockComment =>
      simp only [step, stepBlockComment]
      split_ifs <;> rfl
  | code =>
      have hspace : ∀ d ∈ CharClass.signs, CharClass.isSpace c = true → c ≠ d := fun d hd h heq =>
        CharClass.notMem_signs_of_isSpace h (heq ▸ hd)
      simp only [step, stepCode] at h ⊢
      split_ifs at h ⊢ with h₁ h₂ h₃ h₄ h₅
      · rfl
      · rfl
      · rfl
      · rcases h with h | h
        · cases regions <;> cases h
        · exact absurd (beq_iff_eq.mp h₄) (hspace '\x7b' (by decide) h)
      · rcases h with h | h
        · rcases regions with _ | ⟨_ | k, regions⟩ <;> cases h
        · exact absurd (beq_iff_eq.mp h₅) (hspace '\x7d' (by decide) h)
      · rfl

theorem step_space (hs : s.Quoted) (hin : s.inString = true) (hc : CharClass.isSpace c = true) :
    s.step c next = ⟨.literal, s, false⟩ := by
  obtain ⟨mode, regions, last⟩ := s
  cases mode with
  | lineComment => cases hin
  | blockComment => cases hin
  | code => cases hin
  | string quote =>
      have hne : ∀ d ∈ CharClass.signs, c ≠ d := fun d hd heq =>
        CharClass.notMem_signs_of_isSpace hc (heq ▸ hd)
      have hquote : c ≠ quote := by
        rintro rfl
        have hq : isQuote c = true := hs
        rw [(isPlain_of_isSpace hc).1] at hq
        cases hq
      have hdollar : c ≠ '$' := by
        rintro rfl
        exact absurd hc (by decide)
      simp [step, stepString, hquote, hne '\\' (by decide), hdollar]

theorem kind_ne_comment_of_inString (hin : s.inString = true) :
    (s.step c next).kind ≠ .comment := by
  obtain ⟨mode, regions, last⟩ := s
  cases mode with
  | lineComment => cases hin
  | blockComment => cases hin
  | code => cases hin
  | string quote =>
      simp only [step, stepString]
      split_ifs <;> exact Kind.noConfusion

end State

/-! ## Runs over idle marks -/

namespace Reads

theorem quoted (h : Reads rest s n t ms s') (hs : s.Quoted) : s'.Quoted := by
  induction h with
  | nil => exact hs
  | @one s _ _ _ c t _ _ hstep _ ih =>
      have hquoted := hs.step c (t ++ rest).head?
      rw [hstep] at hquoted
      exact ih hquoted
  | @two s _ _ _ c d _ _ _ hstep _ ih =>
      have hquoted := hs.step c (some d)
      rw [hstep] at hquoted
      exact ih hquoted

theorem regions_eq (h : Reads rest s n t ms s') (hs : s.inString = false) (hms : ∀ m ∈ ms, m.Idle) :
    s'.regions = s.regions ∧ s'.inString = false := by
  induction h with
  | nil => exact ⟨rfl, hs⟩
  | @one s _ _ _ c t _ _ hstep _ ih =>
      obtain ⟨hm, hms⟩ := List.forall_mem_cons.mp hms
      obtain ⟨hregions, hs₁⟩ := @State.step_idle _ c (t ++ rest).head? hs (by rw [hstep]; exact hm)
      rw [hstep] at hregions hs₁
      obtain ⟨hrest, hs'⟩ := ih hs₁ hms
      exact ⟨hrest.trans hregions, hs'⟩
  | @two s _ _ _ c d _ _ _ hstep _ ih =>
      obtain ⟨hm, hms⟩ := List.forall_mem_cons.mp hms
      obtain ⟨-, hms⟩ := List.forall_mem_cons.mp hms
      obtain ⟨hregions, hs₁⟩ := @State.step_idle _ c (some d) hs (by rw [hstep]; exact hm)
      rw [hstep] at hregions hs₁
      obtain ⟨hrest, hs'⟩ := ih hs₁ hms
      exact ⟨hrest.trans hregions, hs'⟩

theorem eq_of_inString (h : Reads rest s n t ms s') (hs : s.Quoted) (hin : s.inString = true)
    (hms : ∀ m ∈ ms, m.Idle) : s' = s := by
  induction h with
  | nil => rfl
  | @one s _ _ _ c t _ _ hstep _ ih =>
      obtain ⟨hm, hms⟩ := List.forall_mem_cons.mp hms
      have hne := @State.kind_ne_comment_of_inString _ c (t ++ rest).head? hin
      rw [hstep] at hne
      have hspace := @State.step_space _ _ (t ++ rest).head? hs hin (hm.resolve_left hne)
      rw [hstep] at hspace
      obtain ⟨-, rfl, -⟩ := Step.mk.inj hspace
      exact ih hs hin hms
  | @two s _ _ _ c d _ _ _ hstep _ ih =>
      obtain ⟨hm, -⟩ := List.forall_mem_cons.mp hms
      have hne := @State.kind_ne_comment_of_inString _ c (some d) hin
      rw [hstep] at hne
      have hspace := @State.step_space _ _ (some d) hs hin (hm.resolve_left hne)
      rw [hstep] at hspace
      cases (Step.mk.inj hspace).2.2

theorem idle_detach (h : Reads rest s n t ms s') (hs' : s'.mode = .code) (hms : ∀ m ∈ ms, m.Idle) :
    Reads rest' s n t ms s' := by
  induction h with
  | nil => exact .nil
  | @one s s₁ _ _ c t k _ hstep htail ih =>
      obtain ⟨hm, hms⟩ := List.forall_mem_cons.mp hms
      cases t with
      | cons d t => exact .one hstep (ih hs' hms)
      | nil =>
          cases htail
          refine .one (State.step_detach hstep hs' ?_) .nil
          by_contra hopen
          rw [Bool.not_eq_false, opensComment, Bool.and_eq_true, beq_iff_eq] at hopen
          obtain ⟨rfl, -⟩ := hopen
          -- a slash that is read by itself ends no comment
          obtain rfl : k = .comment :=
            hm.resolve_right (show ¬ CharClass.isSpace '/' = true by decide)
          obtain ⟨mode, regions, last⟩ := s
          cases mode with
          | lineComment =>
              obtain ⟨-, rfl, -⟩ := Step.mk.inj hstep
              cases hs'
          | blockComment =>
              simp only [State.step, State.stepBlockComment] at hstep
              split_ifs at hstep
              · cases (Step.mk.inj hstep).2.2
              · obtain ⟨-, rfl, -⟩ := Step.mk.inj hstep
                cases hs'
          | string quote =>
              exact State.kind_ne_comment_of_inString (s := ⟨.string quote, regions, last⟩) rfl
                (by rw [hstep])
          | code =>
              simp only [State.step, State.stepCode] at hstep
              split_ifs at hstep <;> simp_all
  | two hstep _ ih =>
      obtain ⟨-, hms⟩ := List.forall_mem_cons.mp hms
      obtain ⟨-, hms⟩ := List.forall_mem_cons.mp hms
      exact .two hstep (ih hs' hms)

end Reads

/-! ## Idle text -/

/-- Nothing but comments and white space, read from code outside of templates back into it. -/
structure Idle (t : Text) : Prop where
  ends : (State.start.after t).Agrees .start
  marks : ∀ m ∈ marksFrom .start 0 t, m.Idle

instance (t : Text) : Decidable (Idle t) :=
  decidable_of_iff ((_ = _ ∧ _ = _) ∧ ∀ m ∈ marksFrom .start 0 t, m.Idle)
    ⟨fun h => ⟨h.1, h.2⟩, fun h => ⟨h.ends, h.marks⟩⟩

theorem idle_marksFrom (hs : s.Agrees .start) (n : Nat) :
    (∀ m ∈ marksFrom s n t, m.Idle) ↔ ∀ m ∈ marksFrom .start 0 t, m.Idle := by
  rw [← marksFrom_agrees t n hs, ← Nat.add_zero n, marksFrom_shift, List.forall_mem_map]
  exact Iff.rfl

theorem Idle.reads (h : Idle t) (hs : s.Agrees .start) (rest : Text) (n : Nat) :
    ∃ ms s', Reads rest s n t ms s' ∧ s'.Agrees .start ∧ ∀ m ∈ ms, m.Idle := by
  have hafter := (State.after_agrees t hs).trans h.ends
  have hms := (idle_marksFrom hs n).mpr h.marks
  exact ⟨_, _, (reads_of_detached t n hafter.1 detached_nil).idle_detach hafter.1 hms, hafter, hms⟩

theorem Reads.idle (h : Reads rest s n t ms s') (hs : s.Agrees .start) (hs' : s'.mode = .code)
    (hms : ∀ m ∈ ms, m.Idle) : Idle t where
  ends := by
    obtain ⟨hregions, -⟩ := h.regions_eq (by rw [State.inString, hs.1]; rfl) hms
    have hagrees : s'.Agrees .start := ⟨hs', hregions.trans hs.2⟩
    exact (State.after_agrees t hs).symm.trans (by rwa [h.after_alone])
  marks := by rwa [h.eq_marksFrom, idle_marksFrom hs] at hms

theorem idle_nil : Idle [] := by decide

theorem idle_of_spaces (h : ∀ c ∈ t, CharClass.isSpace c = true) : Idle t := by
  have hreads : ∀ {t : Text} (n : Nat), (∀ c ∈ t, CharClass.isSpace c = true) →
      ∃ ms, Reads [] .start n t ms .start ∧ ∀ m ∈ ms, m.Idle := by
    intro t
    induction t with
    | nil => exact fun _ _ => ⟨[], .nil, fun _ h => absurd h List.not_mem_nil⟩
    | cons c t ih =>
        intro n ht
        obtain ⟨hc, ht⟩ := List.forall_mem_cons.mp ht
        obtain ⟨hq, -, hslash, -⟩ := isPlain_of_isSpace hc
        obtain ⟨ms, hms, hidle⟩ := ih (n + c.utf8Size) ht
        exact ⟨_, .one (State.step_plain rfl rfl hq (by simp [opensComment, hslash])) hms,
          List.forall_mem_cons.mpr ⟨.inr hc, hidle⟩⟩
  obtain ⟨ms, hms, hidle⟩ := hreads 0 h
  exact hms.idle ⟨rfl, rfl⟩ rfl hidle

theorem Depths.within_of_idle (hms : ∀ m ∈ ms, m.Idle) (d : Depths) :
    d.within (codeText ms) = some d := by
  induction ms with
  | nil => rfl
  | cons m ms ih =>
      obtain ⟨k, c, kind⟩ := m
      obtain ⟨hm, hms⟩ := List.forall_mem_cons.mp hms
      rw [codeText_cons]
      split_ifs with hkind
      · have hspace : CharClass.isSpace c = true :=
          hm.resolve_left (by rw [hkind]; exact Kind.noConfusion)
        obtain ⟨-, hplain, -, hcomma⟩ := isPlain_of_isSpace hspace
        rw [within_cons fun h => hcomma h.1, track_plain hplain]
        exact ih hms
      · exact ih hms

theorem Idle.smooth (h : Idle t) : Smooth t := by
  intro rest s n hs
  obtain ⟨ms, s', hms, hs', hidle⟩ := h.reads hs rest n
  exact ⟨ms, s', hms, hs', Depths.within_of_idle hidle⟩

/-! ## The first mark that counts and the last one -/

/-- A run is cut in front of the first mark that counts, where the scan is in code. -/
theorem Reads.cut_first (h : Reads rest s n t ms s') (hs : s.inString = false)
    (hne : ∃ m ∈ ms, ¬ m.Idle) : ∃ g c x ms₁ m ms₂ σ, t = g ++ c :: x ∧ ms = ms₁ ++ m :: ms₂ ∧
      (∀ m ∈ ms₁, m.Idle) ∧ ¬ m.Idle ∧ m.offset = n + Text.size g ∧ m.char = c ∧
      Reads (c :: x ++ rest) s n g ms₁ σ ∧ σ.mode = .code ∧
      (σ.step c (x ++ rest).head?).kind = m.kind := by
  induction h with
  | nil =>
      obtain ⟨m, hm, -⟩ := hne
      exact absurd hm List.not_mem_nil
  | @one s s₁ s₂ n c t k ms hstep hreads ih =>
      by_cases hm : Mark.Idle ⟨n, c, k⟩
      · obtain ⟨-, hs₁⟩ := @State.step_idle _ c (t ++ rest).head? hs (by rw [hstep]; exact hm)
        rw [hstep] at hs₁
        have hne' : ∃ m ∈ ms, ¬ m.Idle := by
          obtain ⟨m, hmem, hcount⟩ := hne
          rcases List.mem_cons.mp hmem with rfl | hmem
          · exact absurd hm hcount
          · exact ⟨m, hmem, hcount⟩
        obtain ⟨g, d, x, ms₁, m, ms₂, σ, rfl, rfl, hidle, hcount, hoffset, hchar, hg, hσ, hkind⟩ :=
          ih hs₁ hne'
        refine ⟨c :: g, d, x, ⟨n, c, k⟩ :: ms₁, m, ms₂, σ, rfl, rfl,
          List.forall_mem_cons.mpr ⟨hm, hidle⟩, hcount, ?_, hchar, .one ?_ hg, hσ, hkind⟩
        · rw [hoffset, Text.size, Nat.add_assoc]
        · rw [← hstep]
          simp
      · refine ⟨[], c, t, [], ⟨n, c, k⟩, ms, s, rfl, rfl, fun _ h => absurd h List.not_mem_nil, hm,
          rfl, rfl, .nil, ?_, by rw [hstep]⟩
        exact ((State.step_of_mode rfl hs c (t ++ rest).head?).2.2.1
          fun hkind => hm (.inl (by rw [hstep] at hkind; exact hkind))).1
  | @two s s₁ s₂ n c d t k ms hstep hreads ih =>
      have hk : k = .comment := by
        by_contra hk
        have htakes := ((State.step_of_mode rfl hs c (some d)).2.2.1 (by rw [hstep]; exact hk)).2
        rw [hstep] at htakes
        cases htakes
      obtain ⟨-, hs₁⟩ := @State.step_idle _ c (some d) hs (by rw [hstep]; exact .inl hk)
      rw [hstep] at hs₁
      have hne' : ∃ m ∈ ms, ¬ m.Idle := by
        obtain ⟨m, hmem, hcount⟩ := hne
        rcases List.mem_cons.mp hmem with rfl | hmem
        · exact absurd (.inl hk) hcount
        · rcases List.mem_cons.mp hmem with rfl | hmem
          · exact absurd (.inl hk) hcount
          · exact ⟨m, hmem, hcount⟩
      obtain ⟨g, e, x, ms₁, m, ms₂, σ, rfl, rfl, hidle, hcount, hoffset, hchar, hg, hσ, hkind⟩ :=
        ih hs₁ hne'
      refine ⟨c :: d :: g, e, x, ⟨n, c, k⟩ :: ⟨n + c.utf8Size, d, k⟩ :: ms₁, m, ms₂, σ, rfl, rfl,
        List.forall_mem_cons.mpr ⟨.inl hk, List.forall_mem_cons.mpr ⟨.inl hk, hidle⟩⟩, hcount, ?_,
        hchar, .two hstep hg, hσ, hkind⟩
      rw [hoffset, Text.size, Text.size, Nat.add_assoc, Nat.add_assoc]

variable {kind : Kind} {s₁ : State}

/-- A step that takes a blank along as text is an escape in a string, and the string goes on. -/
theorem State.step_escape (hstep : s.step c (some d) = ⟨kind, s₁, true⟩) (hk : kind ≠ .comment)
    (hd : CharClass.isSpace d = true) : s₁ = s ∧ s.inString = true := by
  obtain ⟨mode, regions, last⟩ := s
  cases mode with
  | lineComment => cases (Step.mk.inj hstep).2.2
  | blockComment =>
      simp only [State.step, State.stepBlockComment] at hstep
      split_ifs at hstep
      · exact absurd (Step.mk.inj hstep).1.symm hk
      · cases (Step.mk.inj hstep).2.2
  | string quote =>
      simp only [State.step, State.stepString] at hstep
      split_ifs at hstep with hescape hclose hregion
      · exact ⟨(Step.mk.inj hstep).2.1.symm, rfl⟩
      · cases (Step.mk.inj hstep).2.2
      · -- a region of a template opens with a brace
        simp only [Bool.and_eq_true, beq_iff_eq] at hregion
        obtain rfl := Option.some.inj hregion.2
        exact absurd hd (by decide)
      · cases (Step.mk.inj hstep).2.2
  | code =>
      have htakes := ((State.step_of_mode rfl rfl c (some d)).2.2.1 (by rw [hstep]; exact hk)).2
      rw [hstep] at htakes
      cases htakes

/-- A run can be cut behind its last mark that counts, outside of comments. -/
def CutsLast (rest : Text) (s : State) (n : Nat) (t : Text) (ms : List Mark) (s' : State) : Prop :=
  ∃ u c v ms₁ m ms₂ σ, t = u ++ [c] ++ v ∧ ms = ms₁ ++ m :: ms₂ ∧
    ¬ m.Idle ∧ (∀ m ∈ ms₂, m.Idle) ∧ m.offset = n + Text.size u ∧ m.char = c ∧
    Reads (v ++ rest) s n (u ++ [c]) (ms₁ ++ [m]) σ ∧
    Reads rest σ (n + Text.size (u ++ [c])) v ms₂ s' ∧ σ.uncommented = σ

theorem CutsLast.one (hstep : s.step c (t ++ rest).head? = ⟨kind, s₁, false⟩)
    (h : CutsLast rest s₁ (n + c.utf8Size) t ms s') :
    CutsLast rest s n (c :: t) (⟨n, c, kind⟩ :: ms) s' := by
  obtain ⟨u, d, v, ms₁, m, ms₂, σ, rfl, rfl, hcount, hidle, hoffset, hchar, hu, hv, hσ⟩ := h
  refine ⟨c :: u, d, v, ⟨n, c, kind⟩ :: ms₁, m, ms₂, σ, rfl, rfl, hcount, hidle, ?_, hchar,
    .one ?_ hu, ?_, hσ⟩
  · rw [hoffset, Text.size, Nat.add_assoc]
  · rw [← hstep]
    simp
  · rwa [List.cons_append, Text.size, ← Nat.add_assoc]

theorem CutsLast.two (hstep : s.step c (some d) = ⟨kind, s₁, true⟩)
    (h : CutsLast rest s₁ (n + c.utf8Size + d.utf8Size) t ms s') :
    CutsLast rest s n (c :: d :: t) (⟨n, c, kind⟩ :: ⟨n + c.utf8Size, d, kind⟩ :: ms) s' := by
  obtain ⟨u, e, v, ms₁, m, ms₂, σ, rfl, rfl, hcount, hidle, hoffset, hchar, hu, hv, hσ⟩ := h
  refine ⟨c :: d :: u, e, v, ⟨n, c, kind⟩ :: ⟨n + c.utf8Size, d, kind⟩ :: ms₁, m, ms₂, σ, rfl, rfl,
    hcount, hidle, ?_, hchar, .two hstep hu, ?_, hσ⟩
  · rw [hoffset, Text.size, Text.size, Nat.add_assoc, Nat.add_assoc]
  · rwa [List.cons_append, List.cons_append, Text.size, Text.size, ← Nat.add_assoc,
      ← Nat.add_assoc]

/-- A run that ends outside of strings is cut behind the last mark that counts. -/
theorem Reads.cut_last (h : Reads rest s n t ms s') (hs : s.Quoted) (hs' : s'.inString = false)
    (hne : ∃ m ∈ ms, ¬ m.Idle) : CutsLast rest s n t ms s' := by
  induction h with
  | nil =>
      obtain ⟨m, hm, -⟩ := hne
      exact absurd hm List.not_mem_nil
  | @one s s₁ s₂ n c t k ms hstep hreads ih =>
      have hquoted := hs.step c (t ++ rest).head?
      rw [hstep] at hquoted
      by_cases hbehind : ∃ m ∈ ms, ¬ m.Idle
      · exact .one hstep (ih hquoted hs' hbehind)
      · have hidle : ∀ m ∈ ms, m.Idle := fun m hm => by_contra fun hm' => hbehind ⟨m, hm, hm'⟩
        have hcount : ¬ Mark.Idle ⟨n, c, k⟩ := fun hc =>
          hne.elim fun m hm => hm.2 (List.forall_mem_cons.mpr ⟨hc, hidle⟩ m hm.1)
        have hstate := (@State.of_step_ne_comment s c (t ++ rest).head?
          (by rw [hstep]; exact fun hk => hcount (.inl hk))).2
        rw [hstep] at hstate
        exact ⟨[], c, t, [], ⟨n, c, k⟩, ms, s₁, rfl, rfl, hcount, hidle, rfl, rfl,
          .one hstep .nil, hreads, hstate⟩
  | @two s s₁ s₂ n c d t k ms hstep hreads ih =>
      have hquoted := hs.step c (some d)
      rw [hstep] at hquoted
      by_cases hbehind : ∃ m ∈ ms, ¬ m.Idle
      · exact .two hstep (ih hquoted hs' hbehind)
      · have hidle : ∀ m ∈ ms, m.Idle := fun m hm => by_contra fun hm' => hbehind ⟨m, hm, hm'⟩
        have hcount : ¬ (Mark.Idle ⟨n, c, k⟩ ∧ Mark.Idle ⟨n + c.utf8Size, d, k⟩) := fun hc =>
          hne.elim fun m hm => hm.2 (List.forall_mem_cons.mpr
            ⟨hc.1, List.forall_mem_cons.mpr ⟨hc.2, hidle⟩⟩ m hm.1)
        have hk : k ≠ .comment := fun hk => hcount ⟨.inl hk, .inl hk⟩
        have hd : ¬ Mark.Idle ⟨n + c.utf8Size, d, k⟩ := fun hd => by
          -- an escaped blank leaves the scan in the string, and so do idle marks
          obtain ⟨rfl, hin⟩ := State.step_escape hstep hk (hd.resolve_left hk)
          rw [hreads.eq_of_inString hs hin hidle, hin] at hs'
          cases hs'
        have hstate := (@State.of_step_ne_comment s c (some d) (by rw [hstep]; exact hk)).2
        rw [hstep] at hstate
        exact ⟨[c], d, t, [⟨n, c, k⟩], ⟨n + c.utf8Size, d, k⟩, ms, s₁, rfl, rfl, hd, hidle,
          by simp [Text.size], rfl, .two hstep .nil, by
            simpa [Text.size, Nat.add_assoc] using hreads, hstate⟩

theorem eq_of_last {α : Type} {P : α → Prop} {as bs as' bs' : List α} {a a' : α}
    (h : as ++ a :: bs = as' ++ a' :: bs') (ha : ¬ P a) (hbs : ∀ b ∈ bs, P b) (ha' : ¬ P a')
    (hbs' : ∀ b ∈ bs', P b) : as = as' ∧ a = a' ∧ bs = bs' := by
  rcases List.append_eq_append_iff.mp h with ⟨xs, rfl, hxs⟩ | ⟨xs, rfl, hxs⟩
  · cases xs with
    | nil => exact ⟨(List.append_nil _).symm, List.cons.inj hxs⟩
    | cons x xs =>
        obtain ⟨-, rfl⟩ := List.cons.inj hxs
        exact absurd (hbs a' (List.mem_append_right _ List.mem_cons_self)) ha'
  · cases xs with
    | nil =>
        obtain ⟨rfl, rfl⟩ := List.cons.inj hxs
        exact ⟨List.append_nil _, rfl, rfl⟩
    | cons x xs =>
        obtain ⟨-, rfl⟩ := List.cons.inj hxs
        exact absurd (hbs' a (List.mem_append_right _ List.mem_cons_self)) ha

theorem Reads.offset_last (h : Reads rest s n t (ms ++ [m]) s') :
    ∃ w, t = w ++ [m.char] ∧ m.offset = n + Text.size w ∧ ∀ x ∈ ms, x.offset < n + Text.size w := by
  have hchars := chars_marksFrom s n t
  have htext := h.map_char
  rw [List.map_append] at htext
  rw [← h.eq_marksFrom, ← htext, Text.indexed_append, List.map_append] at hchars
  obtain ⟨hms, hm⟩ := List.append_inj' hchars rfl
  refine ⟨ms.map (·.char), htext.symm, (Prod.mk.inj (List.cons.inj hm).1).1, fun x hx => ?_⟩
  have hmem : (x.offset, x.char) ∈ Text.indexed n (ms.map (·.char)) := by
    rw [← hms]
    exact List.mem_map_of_mem (f := fun m : Mark => (m.offset, m.char)) hx
  obtain ⟨u, v, hcut, hoffset⟩ := Text.exists_of_mem_indexed hmem
  have hpos := x.char.utf8Size_pos
  simp only at hoffset hcut
  rw [hoffset, hcut, Text.size_append, Text.size]
  omega

/-- Unbroken text is unbroken up to its last mark that counts, and the rest is idle. -/
theorem Unbroken.cut_last (ht : Unbroken t) (hne : ∃ m ∈ marksFrom .start 0 t, ¬ m.Idle) :
    ∃ u c v ms₁ m ms₂, t = u ++ [c] ++ v ∧ marksFrom .start 0 t = ms₁ ++ m :: ms₂ ∧
      marksFrom .start 0 (u ++ [c]) = ms₁ ++ [m] ∧ ¬ m.Idle ∧ (∀ m ∈ ms₂, m.Idle) ∧
      m.offset = Text.size u ∧ m.char = c ∧ Unbroken (u ++ [c]) ∧ Idle v := by
  have hreads := reads_of_detached (s := .start) t 0 ht.ends.1 detached_nil
  have hout : (State.start.after t).inString = false := by rw [State.inString, ht.ends.1]; rfl
  obtain ⟨u, c, v, ms₁, m, ms₂, σ, hcut, hms, hcount, hidle, hoffset, hchar, hu, hv, hσ⟩ :=
    hreads.cut_last State.quoted_start hout hne
  have hquoted := hu.quoted State.quoted_start
  have hin : σ.inString = false := by
    by_contra hin
    rw [Bool.not_eq_false] at hin
    rw [hv.eq_of_inString hquoted hin hidle, hin] at hout
    cases hout
  have hmode : σ.mode = .code := by
    obtain ⟨mode, regions, last⟩ := σ
    cases mode with
    | code => rfl
    | lineComment => cases congrArg State.mode hσ
    | blockComment => cases congrArg State.mode hσ
    | string quote => cases hin
  have hagrees : σ.Agrees .start := ⟨hmode, (hv.regions_eq hin hidle).1.symm.trans ht.ends.2⟩
  have hwithin := ht.within
  rw [hms, show ms₁ ++ m :: ms₂ = (ms₁ ++ [m]) ++ ms₂ by
    simp, codeText_append, Depths.within_append] at hwithin
  obtain ⟨d, hd, hwithin⟩ := Option.bind_eq_some_iff.mp hwithin
  rw [Depths.within_of_idle hidle] at hwithin
  refine ⟨u, c, v, ms₁, m, ms₂, hcut, hms, hu.eq_marksFrom.symm, hcount, hidle,
    by rw [hoffset, Nat.zero_add], hchar, hu.unbroken ⟨rfl, rfl⟩ hagrees (by rw [hd, hwithin]),
    hv.idle hagrees ht.ends.1 hidle⟩

end ServiceGate.Scan
