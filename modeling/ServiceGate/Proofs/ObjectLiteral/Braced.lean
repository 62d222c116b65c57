/-
# Braces around closed text

A text is `Braced` if it is a pair of braces around text that is read from code outside of templates
back into it with every bracket closed.  Wherever it stands it is read as one literal, from its
first brace to its last (`Braced.exists_readAt?`), and nothing in it breaks the text around it
(`Braced.smooth`).  So is what a literal made of unbroken pieces is, and any balanced text whose
first brace is closed by its last character (`braced_of_balanced`).

For balanced text the brackets are counted: where the search for the closer of the first brace ends
with the last character, the row in between never falls below what was open, and what closes no more
than it opens, and ends with as much open as at first, is closed (`trackAll_of_closeIn`).
-/
import ServiceGate.Proofs.ObjectLiteral.Pieces

namespace ServiceGate

open Scan

variable {t v w x y : Text} {ps : List Text} {n k close : Nat} {d d' : Depths}

/-- Braces around text in which every bracket, string, template and comment is closed. -/
def Braced (v : Text) : Prop :=
  ∃ w, v = '\x7b' :: (w ++ ['\x7d']) ∧ (State.start.after w).Agrees .start ∧
    Depths.zero.trackAll (codeText (marksFrom .start 0 w)) = some .zero

theorem Scan.Smooth.closed (h : Smooth t) : Closed t := fun rest s n hs => by
  obtain ⟨ms, s', hms, hs', hd⟩ := h rest s n hs
  exact ⟨ms, s', hms, hs', fun d => Depths.trackAll_of_within (hd d)⟩

theorem Scan.Closed.braced (h : Closed w) : Braced ('\x7b' :: (w ++ ['\x7d'])) := by
  obtain ⟨ms, s, hms, hs, htrack⟩ := h [] .start 0 ⟨rfl, rfl⟩
  refine ⟨w, rfl, hms.after_alone ▸ hs, ?_⟩
  rw [← hms.eq_marksFrom]
  exact htrack .zero

namespace Braced

theorem smooth (h : Braced v) : Smooth v := by
  obtain ⟨w, rfl, hends, htrack⟩ := h
  intro rest s n hs
  have hopen : s.step '\x7b' (w ++ ['\x7d'] ++ rest).head? = ⟨.code, s, false⟩ :=
    State.step_plain hs.1 hs.2 rfl rfl
  have hafter := (State.after_agrees w hs).trans hends
  have hw :=
    reads_of_detached (s := s) w (n + '\x7b'.utf8Size) hafter.1 (detached_closer .brace rest)
  have hclose : (s.after w).step '\x7d' rest.head? = ⟨.code, s.after w, false⟩ :=
    State.step_plain hafter.1 hafter.2 rfl rfl
  refine ⟨_, _, .one hopen (Reads.append hw (.one hclose .nil)), hafter, fun d => ?_⟩
  rw [codeText_cons, if_pos rfl, codeText_append, codeText_cons, if_pos rfl,
    ← marksFrom_agrees w _ hs, codeText_marksFrom w .start _ 0]
  exact Depths.within_braced htrack d

/-- Braced text is read from its first brace to its last. -/
theorem exists_readAt? (h : Braced v) (x y : Text) :
    ∃ o, ObjectLiteral.readAt? (x ++ v ++ y) (Text.size x) = some o ∧ o.openAt = Text.size x ∧
      o.closeAt + 1 = Text.size x + Text.size v := by
  obtain ⟨w, rfl, hends, htrack⟩ := h
  have htext : x ++ '\x7b' :: (w ++ ['\x7d']) ++ y =
      x ++ Bracket.brace.opener :: (w ++ Bracket.brace.closer :: y) := by
    simp [Bracket.opener, Bracket.closer]
  have hw := reads_of_detached (s := .start) w (Text.size x + 1) hends.1 (detached_closer .brace y)
  have hstep : (State.start.after w).step Bracket.brace.closer y.head? =
      ⟨.code, State.start.after w, false⟩ :=
    State.step_plain hends.1 hends.2 rfl rfl
  have hclose : matchingClose? (x ++ '\x7b' :: (w ++ ['\x7d']) ++ y) (Text.size x) =
      some (Text.size x + 1 + Text.size w) := by
    rw [codeText_marksFrom w .start 0 (Text.size x + 1)] at htrack
    rw [htext, matchingClose?_opener .brace rfl, hw.marksFrom_eq, marksFrom_one _ (by rw [hstep]),
      hstep, codeOf_append]
    refine (closeIn_of_trackAll .brace _ htrack).trans ?_
    rw [codeOf_cons_code]
    exact closeIn_closer_zero .brace _ _
  have hafter : (x ++ '\x7b' :: (w ++ ['\x7d']) ++ y).after (Text.size x) =
      '\x7b' :: (w ++ ['\x7d'] ++ y) := by
    rw [List.append_assoc, Text.after_append]
    rfl
  rw [ObjectLiteral.readAt?, hafter, hclose]
  refine ⟨_, rfl, rfl, ?_⟩
  simp only [Text.size, Text.size_append]
  have h₁ : '\x7b'.utf8Size = 1 := rfl
  have h₂ : '\x7d'.utf8Size = 1 := rfl
  omega

theorem ofPieces (hne : ps ≠ []) (hps : ∀ p ∈ ps, Unbroken p) :
    Braced (ObjectLiteral.ofPieces ps) := by
  obtain ⟨p, ps, rfl⟩ := List.exists_cons_of_ne_nil hne
  obtain ⟨ms, s, hms, hs, htrack, -⟩ :=
    ObjectLiteral.reads_joined ps (s := .start) (n := 0) hps ⟨rfl, rfl⟩ detached_nil
  refine ⟨_, rfl, ?_, ?_⟩
  · rwa [hms.after_alone]
  · rwa [← hms.eq_marksFrom]

end Braced

/-! ## Balanced groups -/

theorem exists_track {c : Char} (hc : c = '\x7d' → d.braces ≠ 0)
    (h : (d.over ⟨1, 0, 0⟩).track c = some d') :
    ∃ d₁, d.track c = some d₁ ∧ d' = d₁.over ⟨1, 0, 0⟩ := by
  obtain ⟨d₁, hd₁⟩ : ∃ d₁, d.track c = some d₁ := by
    unfold Depths.track at h ⊢
    split at h
    · exact ⟨_, rfl⟩
    · exact ⟨_, rfl⟩
    · exact ⟨_, rfl⟩
    · obtain ⟨n, hn⟩ := Nat.exists_eq_succ_of_ne_zero (hc rfl)
      exact ⟨{ d with braces := n }, by rw [hn]; rfl⟩
    · obtain ⟨n, hn, -⟩ := Option.map_eq_some_iff.mp h
      exact ⟨{ d with squares := n }, Option.map_eq_some_iff.mpr ⟨n, hn, rfl⟩⟩
    · obtain ⟨n, hn, -⟩ := Option.map_eq_some_iff.mp h
      exact ⟨{ d with parens := n }, Option.map_eq_some_iff.mpr ⟨n, hn, rfl⟩⟩
    · exact ⟨_, rfl⟩
  exact ⟨d₁, hd₁, Option.some.inj (h.symm.trans (Depths.track_over ⟨1, 0, 0⟩ hd₁))⟩

/-- What stands in front of the brace that closes a brace closes no more than it opens. -/
theorem trackAll_of_closeIn (more : List (Nat × Char)) : ∀ {xs : List (Nat × Char)} {d d' : Depths},
    closeIn '\x7b' '\x7d' d.braces (xs ++ more) = some close → (∀ x ∈ xs, x.1 ≠ close) →
      (d.over ⟨1, 0, 0⟩).trackAll (xs.map (·.2)) = some d' →
        ∃ d₁, d.trackAll (xs.map (·.2)) = some d₁ ∧ d' = d₁.over ⟨1, 0, 0⟩
  | [], d, d', _, _, h => ⟨d, rfl, (Option.some.inj h).symm⟩
  | (k, c) :: xs, d, d', hclose, hne, h => by
      obtain ⟨hk, hne⟩ := List.forall_mem_cons.mp hne
      obtain ⟨d₂, hd₂, h⟩ := Option.bind_eq_some_iff.mp h
      have hbrace : c = '\x7d' → d.braces ≠ 0 := by
        rintro rfl hzero
        rw [hzero] at hclose
        exact hk (Option.some.inj ((closeIn_closer_zero .brace k (xs ++ more)).symm.trans hclose))
      obtain ⟨d₁, hd₁, rfl⟩ := exists_track hbrace hd₂
      have hrest : closeIn Bracket.brace.opener Bracket.brace.closer (d₁.count .brace)
          (xs ++ more) =
          some close := by
        have hall : closeIn Bracket.brace.opener Bracket.brace.closer (d.count .brace)
            ((k, c) :: (xs ++ more)) = some close := hclose
        obtain ⟨rfl, hcount⟩ | ⟨rfl, hcount⟩ | ⟨ho, hc, hcount⟩ := Depths.count_track hd₁ .brace
        · rwa [closeIn_opener, ← hcount] at hall
        · rwa [hcount, closeIn_closer_succ] at hall
        · rwa [closeIn_other ho hc, ← hcount] at hall
      obtain ⟨d₃, hd₃, rfl⟩ := trackAll_of_closeIn more hrest hne h
      exact ⟨d₃, by rw [List.map_cons, Depths.trackAll, hd₁, Option.bind_some, hd₃], rfl⟩

/-- The scan of what stands between two braces, the second of which it comes to in code. -/
structure Enclosed (w : Text) (ms : List Mark) (s : State) : Prop where
  reads : Reads ['\x7d'] .start 1 w ms s
  mode : s.mode = .code
  closes : (s.step '\x7d' none).kind = .code

namespace Enclosed

variable {ms : List Mark} {s : State}

theorem marks_eq (h : Enclosed w ms s) :
    marksFrom .start 1 (w ++ ['\x7d']) = ms ++ [⟨1 + Text.size w, '\x7d', .code⟩] := by
  rw [h.reads.marksFrom_eq, ← h.closes]
  rfl

theorem regions_eq (h : Enclosed w ms s) (hv : balanced ('\x7b' :: (w ++ ['\x7d'])) = true) :
    s.regions = [] := by
  have hopen : State.start.step '\x7b' (w ++ ['\x7d']).head? = ⟨.code, .start, false⟩ :=
    State.step_plain rfl rfl rfl rfl
  rw [balanced, Bool.and_eq_true, Bool.not_eq_true', finalState, State.after_one (by rw [hopen]),
    hopen, h.reads.after_eq] at hv
  have hcloses := h.closes
  obtain ⟨mode, regions, last⟩ := s
  obtain rfl : mode = .code := h.mode
  rcases regions with _ | ⟨_ | k, regions⟩
  · rfl
  · cases hcloses
  · cases hv.2

/-- Counted from the first brace on, what is open in front of the second one is closed by it. -/
theorem exists_trackAll (h : Enclosed w ms s)
    (hv : balanced ('\x7b' :: (w ++ ['\x7d'])) = true) :
    ∃ d, (Depths.zero.over ⟨1, 0, 0⟩).trackAll (codeText ms) = some d ∧
      d.track '\x7d' = some .zero := by
  have hopen : State.start.step '\x7b' (w ++ ['\x7d']).head? = ⟨.code, .start, false⟩ :=
    State.step_plain rfl rfl rfl rfl
  have hcode : codeText (marksFrom .start 0 ('\x7b' :: (w ++ ['\x7d']))) =
      '\x7b' :: (codeText ms ++ ['\x7d']) := by
    rw [marksFrom_one _ (by rw [hopen]), hopen, Nat.zero_add,
      show '\x7b'.utf8Size = 1 from rfl, h.marks_eq, codeText_cons, if_pos rfl, codeText_append]
    rfl
  rw [balanced, Bool.and_eq_true, beq_iff_eq, codeChars_eq, marks, Text.after, Text.after?_zero,
    Option.getD_some, ← codeText, hcode, Depths.trackAll] at hv
  have htrack : (Depths.zero.over ⟨1, 0, 0⟩).trackAll (codeText ms ++ ['\x7d']) = some .zero :=
    hv.1
  rw [Depths.trackAll_append] at htrack
  obtain ⟨d, hd, htrack⟩ := Option.bind_eq_some_iff.mp htrack
  obtain ⟨d₁, hd₁, hnil⟩ := Option.bind_eq_some_iff.mp htrack
  exact ⟨d, hd, by rw [hd₁]; exact hnil⟩

/-- If the second brace closes the first one, what stands between them closes what it opens. -/
theorem trackAll_eq (h : Enclosed w ms s) (hv : balanced ('\x7b' :: (w ++ ['\x7d'])) = true)
    (hclose : matchingClose? ('\x7b' :: (w ++ ['\x7d'])) 0 = some (1 + Text.size w)) :
    Depths.zero.trackAll (codeText ms) = some .zero := by
  obtain ⟨d, hd, hzero⟩ := h.exists_trackAll hv
  have hmatch : matchingClose? ('\x7b' :: (w ++ ['\x7d'])) 0 =
      closeIn '\x7b' '\x7d' 0 (codeOf (marksFrom .start 1 (w ++ ['\x7d']))) :=
    matchingClose?_opener .brace (p := []) rfl (w ++ ['\x7d'])
  rw [h.marks_eq, codeOf_append] at hmatch
  have hne : ∀ x ∈ codeOf ms, x.1 ≠ 1 + Text.size w := fun x hx => by
    obtain ⟨m, hm, hcode⟩ := List.mem_filterMap.mp hx
    have hlt := offset_lt_of_reads h.reads m hm
    split_ifs at hcode
    obtain rfl := Option.some.inj hcode
    exact Nat.ne_of_lt hlt
  obtain ⟨d₁, hd₁, rfl⟩ :=
    trackAll_of_closeIn (d := .zero) _ (hmatch.symm.trans hclose) hne hd
  obtain rfl : d₁ = .zero := by
    obtain ⟨braces, squares, parens⟩ := d₁
    exact Option.some.inj hzero
  exact hd₁

end Enclosed

theorem exists_enclosed (hhead : v.head? = some '\x7b')
    (hclose : matchingClose? v 0 = some (Text.size v - 1)) :
    ∃ w ms s, v = '\x7b' :: (w ++ ['\x7d']) ∧ Enclosed w ms s := by
  obtain ⟨o, ho⟩ : ∃ o, ObjectLiteral.readAt? v 0 = some o := by
    have hsome := ObjectLiteral.isSome_readAt? (t := v) (n := 0)
      (by rwa [Text.after, Text.after?_zero])
    rw [hclose] at hsome
    exact Option.isSome_iff_exists.mp hsome
  have hcloseAt : o.closeAt = Text.size v - 1 := by
    rw [ObjectLiteral.readAt?] at ho
    split at ho
    · rw [hclose] at ho
      rw [← Option.some.inj ho]
    · cases ho
  obtain ⟨x, w, y, ms, ms', s, rfl, hx, -, hplace, hw, hs, hmarks⟩ :=
    ObjectLiteral.exists_inner ho
  obtain rfl : x = [] := Text.eq_nil_of_size hx.symm
  have hbraces : '\x7b'.utf8Size = 1 ∧ '\x7d'.utf8Size = 1 := ⟨rfl, rfl⟩
  obtain rfl : y = [] := Text.eq_nil_of_size (by
    simp only [List.nil_append, Text.size, Text.size_append] at hcloseAt
    omega)
  replace hw : Reads ['\x7d'] .start 1 w ms s := hw
  refine ⟨w, ms, s, rfl, hw, hs, ?_⟩
  have hafter := Text.after_append_cons [] '\x7b' (w ++ ['\x7d'])
  have hlast : ms ++ [⟨1 + Text.size w, '\x7d', (s.step '\x7d' none).kind⟩] =
      ms ++ ⟨o.closeAt, '\x7d', .code⟩ :: ms' := by
    rw [marks, show 0 + 1 = Text.size [] + '\x7b'.utf8Size from rfl, hafter] at hmarks
    rw [← hmarks]
    exact hw.marksFrom_eq.symm
  exact (Mark.mk.inj (List.cons.inj (List.append_cancel_left hlast)).1).2.2

/-- A balanced text whose last character closes the brace it starts with. -/
theorem braced_of_balanced (hv : balanced v = true) (hhead : v.head? = some '\x7b')
    (hclose : matchingClose? v 0 = some (Text.size v - 1)) : Braced v := by
  obtain ⟨w, ms, s, rfl, h⟩ := exists_enclosed hhead hclose
  have hsize : Text.size ('\x7b' :: (w ++ ['\x7d'])) - 1 = 1 + Text.size w := by
    have hbraces : '\x7b'.utf8Size = 1 ∧ '\x7d'.utf8Size = 1 := ⟨rfl, rfl⟩
    simp only [Text.size, Text.size_append]
    omega
  refine ⟨w, rfl, ?_, ?_⟩
  · rw [h.reads.after_alone]
    exact ⟨h.mode, h.regions_eq hv⟩
  · rw [codeText_marksFrom w .start 0 1, ← h.reads.eq_marksFrom]
    exact h.trackAll_eq hv (hsize ▸ hclose)

end ServiceGate
