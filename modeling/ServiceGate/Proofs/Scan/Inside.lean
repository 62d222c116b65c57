/-
# Inside of further regions

Two scans of one text, the second inside of further regions, go step by step alike
(`State.step_inside`) until the first one reads as code the brace that ends the innermost of those
regions.  So they read alike what closes no more braces than it opens (`Reads.inside`), and where
the first one finds the closer of a brace, the second one finds the same (`closeIn_inside`).

`Inside` counts the braces that are open in the innermost of the further regions, those in the
regions of the first state among them (`openIn`).  As long as the count is positive, a closing brace
ends no further region, and each brace that is code in the first scan moves the count by one
(`openBraces`).
-/
import ServiceGate.Proofs.Scan.Exchange

namespace ServiceGate.Scan

variable {s s' s₁ : State} {rest t : Text} {c : Char} {next : Option Char} {k n depth close : Nat}
  {ms : List Mark} {d d₁ : Depths}

def openIn : List Nat → Nat
  | [] => 0
  | d :: regions => d + openIn regions

/-- The second state stands where the first one does, but inside of further regions; `k` braces are
open in the innermost of these, counting those in the regions of the first state. -/
def Inside (k : Nat) (s s' : State) : Prop :=
  s'.mode = s.mode ∧ ∃ outer, s'.regions = s.regions ++ outer ∧
    ∀ d ∈ outer.head?, d + openIn s.regions = k

def openBraces (k : Nat) (kind : Kind) (c : Char) : Nat :=
  if kind = .code then if c = '\x7b' then k + 1 else if c = '\x7d' then k - 1 else k else k

theorem openBraces_plain {kind : Kind} (h : kind = .code → c ≠ '\x7b' ∧ c ≠ '\x7d') :
    openBraces k kind c = k := by
  unfold openBraces
  split_ifs with hk ho hc
  · exact absurd ho (h hk).1
  · exact absurd hc (h hk).2
  · rfl
  · rfl

theorem inside_start (hs : s.Agrees .start) (hs' : s'.mode = .code)
    (hk : ∀ d ∈ s'.regions.head?, d = k) : Inside k s s' :=
  ⟨hs'.trans hs.1.symm, s'.regions, by rw [show s.regions = [] from hs.2, List.nil_append], by
    rw [show s.regions = [] from hs.2]
    exact hk⟩

namespace State

theorem stepOpenBrace_inside (h : Inside k s s') :
    s'.stepOpenBrace.kind = .code ∧ s.stepOpenBrace.kind = .code ∧
      s'.stepOpenBrace.takesNext = s.stepOpenBrace.takesNext ∧
      Inside (k + 1) s.stepOpenBrace.state s'.stepOpenBrace.state := by
  obtain ⟨mode, regions, last⟩ := s
  obtain ⟨mode', regions', last'⟩ := s'
  obtain ⟨rfl, outer, hregions, hk⟩ := h
  dsimp only at hregions hk
  subst hregions
  cases regions with
  | nil =>
      cases outer with
      | nil => exact ⟨rfl, rfl, rfl, rfl, [], rfl, fun _ h => absurd h (Option.not_mem_none _)⟩
      | cons d outer =>
          refine ⟨rfl, rfl, rfl, rfl, (d + 1) :: outer, rfl, fun _ h => ?_⟩
          obtain rfl := Option.some.inj h
          have := hk d rfl
          simp only [stepOpenBrace, openIn] at this ⊢
          omega
  | cons a regions =>
      refine ⟨rfl, rfl, rfl, rfl, outer, rfl, fun d hd => ?_⟩
      have := hk d hd
      simp only [stepOpenBrace, openIn] at this ⊢
      omega

theorem stepCloseBrace_inside (h : Inside k s s') (hk : k = 0 → s.stepCloseBrace.kind ≠ .code) :
    s'.stepCloseBrace.kind = s.stepCloseBrace.kind ∧
      s'.stepCloseBrace.takesNext = s.stepCloseBrace.takesNext ∧
      Inside (if s.stepCloseBrace.kind = .code then k - 1 else k) s.stepCloseBrace.state
        s'.stepCloseBrace.state := by
  obtain ⟨mode, regions, last⟩ := s
  obtain ⟨mode', regions', last'⟩ := s'
  obtain ⟨rfl, outer, hregions, hd⟩ := h
  dsimp only at hregions hd
  subst hregions
  rcases regions with _ | ⟨_ | a, regions⟩
  · rcases outer with _ | ⟨_ | d, outer⟩
    · exact ⟨rfl, rfl, rfl, [], rfl, fun _ h => absurd h (Option.not_mem_none _)⟩
    · exact absurd rfl (hk (hd 0 rfl).symm)
    · refine ⟨rfl, rfl, rfl, d :: outer, rfl, fun _ h => ?_⟩
      obtain rfl := Option.some.inj h
      have := hd _ rfl
      simp only [stepCloseBrace, if_true, openIn] at this ⊢
      omega
  · refine ⟨rfl, rfl, rfl, outer, rfl, fun d h => ?_⟩
    have := hd d h
    simpa [stepCloseBrace, enterString, openIn] using this
  · refine ⟨rfl, rfl, rfl, outer, rfl, fun d h => ?_⟩
    have := hd d h
    simp only [stepCloseBrace, if_true, openIn] at this ⊢
    omega

/-- Inside of further regions a step is the same, unless it ends the innermost of them. -/
theorem step_inside (h : Inside k s s') (c : Char) (next : Option Char)
    (hk : k = 0 → (s.step c next).kind = .code → c ≠ '\x7d') :
    (s'.step c next).kind = (s.step c next).kind ∧
      (s'.step c next).takesNext = (s.step c next).takesNext ∧
      Inside (openBraces k (s.step c next).kind c) (s.step c next).state
      (s'.step c next).state := by
  have hin := h
  obtain ⟨hmode, outer, hregions, hd⟩ := h
  have hcomment : openBraces k .comment c = k := openBraces_plain Kind.noConfusion
  have hliteral : openBraces k .literal c = k := openBraces_plain Kind.noConfusion
  cases hs : s.mode with
  | lineComment =>
      simp only [step, hs, hmode, stepLineComment, hcomment, true_and]
      split_ifs
      · exact ⟨rfl, outer, hregions, hd⟩
      · exact hin
  | blockComment =>
      simp only [step, hs, hmode, stepBlockComment]
      split_ifs
      · exact ⟨rfl, rfl, hcomment ▸ ⟨rfl, outer, hregions, hd⟩⟩
      · exact ⟨rfl, rfl, hcomment ▸ hin⟩
  | string quote =>
      simp only [step, hs, hmode, stepString]
      split_ifs
      · exact ⟨rfl, rfl, hliteral ▸ hin⟩
      · exact ⟨rfl, rfl, hliteral ▸ ⟨rfl, outer, hregions, hd⟩⟩
      · rw [hliteral]
        exact ⟨rfl, rfl, rfl, outer, by rw [hregions, List.cons_append], by simpa [openIn] using hd⟩
      · exact ⟨rfl, rfl, hliteral ▸ hin⟩
  | code =>
      simp only [step, hs, hmode, stepCode] at hk ⊢
      split_ifs at hk ⊢ with h₁ h₂ h₃ h₄ h₅
      · exact ⟨rfl, rfl, hcomment ▸ ⟨rfl, outer, hregions, hd⟩⟩
      · exact ⟨rfl, rfl, hcomment ▸ ⟨rfl, outer, hregions, hd⟩⟩
      · exact ⟨rfl, rfl, hliteral ▸ ⟨rfl, outer, hregions, hd⟩⟩
      · obtain ⟨hk', hk, htakes, hin⟩ := stepOpenBrace_inside hin
        rw [openBraces, if_pos hk, if_pos (beq_iff_eq.mp h₄)]
        exact ⟨hk'.trans hk.symm, htakes, hin⟩
      · obtain rfl := beq_iff_eq.mp h₅
        obtain ⟨hkind, htakes, hin⟩ := stepCloseBrace_inside hin fun h hcode => hk h hcode rfl
        rw [openBraces, if_neg (show ¬ '\x7d' = '\x7b' by decide), if_pos rfl]
        exact ⟨hkind, htakes, hin⟩
      · rw [openBraces_plain fun _ =>
          ⟨fun h => h₄ (beq_iff_eq.mpr h), fun h => h₅ (beq_iff_eq.mpr h)⟩]
        exact ⟨rfl, rfl, hin⟩

end State

/-! ## Runs -/

theorem Step.eq_mk {r : Step} {kind : Kind} {takes : Bool} (hk : r.kind = kind)
    (ht : r.takesNext = takes) : r = ⟨kind, r.state, takes⟩ := by
  rw [← hk, ← ht]

theorem openBraces_track (h : d.track c = some d₁) (hk : d.braces ≤ k) :
    openBraces k .code c = k + d₁.braces - d.braces ∧ d₁.braces ≤ openBraces k .code c := by
  rw [openBraces, if_pos rfl]
  have hcount := Depths.count_track h .brace
  simp only [Depths.count, Bracket.opener, Bracket.closer] at hcount
  obtain ⟨rfl, hcount⟩ | ⟨rfl, hcount⟩ | ⟨ho, hc, hcount⟩ := hcount
  · rw [if_pos rfl]
    omega
  · rw [if_neg (by decide), if_pos rfl]
    omega
  · rw [if_neg ho, if_neg hc]
    omega

/-- What closes no brace that it does not open is read the same inside of further regions. -/
theorem Reads.inside (h : Reads rest s n t ms s₁) : ∀ {s' : State} {k : Nat} {d : Depths},
    Inside k s s' → d.trackAll (codeText ms) = some d₁ → d.braces ≤ k →
      ∃ s₁', Reads rest s' n t ms s₁' ∧ Inside (k + d₁.braces - d.braces) s₁ s₁' := by
  induction h with
  | nil =>
      intro s' k d hin htrack hk
      obtain rfl := Option.some.inj htrack
      exact ⟨s', .nil, by rwa [Nat.add_sub_cancel]⟩
  | @one s s₂ _ n c t kind ms hstep _ ih =>
      intro s' k d hin htrack hk
      rw [codeText_cons] at htrack
      by_cases hkind : kind = .code
      · subst hkind
        rw [if_pos rfl] at htrack
        obtain ⟨d₂, hd₂, htrack⟩ := Option.bind_eq_some_iff.mp htrack
        obtain ⟨hopen, hle⟩ := openBraces_track hd₂ hk
        obtain ⟨hkind', htakes, hin'⟩ := State.step_inside hin c (t ++ rest).head? (by
          rintro rfl - rfl
          obtain ⟨m, hm, -⟩ := Option.map_eq_some_iff.mp hd₂
          rw [pred?_eq_some] at hm
          omega)
        rw [hstep] at hkind' htakes hin'
        obtain ⟨s₁', hreads, hin''⟩ := ih hin' htrack hle
        refine ⟨s₁', .one (Step.eq_mk hkind' htakes) hreads, ?_⟩
        rwa [hopen, show k + d₂.braces - d.braces + d₁.braces - d₂.braces =
          k + d₁.braces - d.braces by omega] at hin''
      · rw [if_neg hkind] at htrack
        obtain ⟨hkind', htakes, hin'⟩ := State.step_inside hin c (t ++ rest).head?
          fun _ hcode => absurd (by rwa [hstep] at hcode) hkind
        rw [hstep] at hkind' htakes hin'
        rw [openBraces_plain fun h => absurd h hkind] at hin'
        obtain ⟨s₁', hreads, hin''⟩ := ih hin' htrack hk
        exact ⟨s₁', .one (Step.eq_mk hkind' htakes) hreads, hin''⟩
  | @two s s₂ _ n c c' t kind ms hstep _ ih =>
      intro s' k d hin htrack hk
      have hkind : kind ≠ .code := by
        rintro rfl
        have hkind : (s.step c (some c')).kind = .code := by rw [hstep]
        have htakes := (State.of_step_code hkind).2.2.2
        rw [hstep] at htakes
        cases htakes
      rw [codeText_cons, codeText_cons, if_neg hkind, if_neg hkind] at htrack
      obtain ⟨hkind', htakes, hin'⟩ := State.step_inside hin c (some c')
        fun _ hcode => absurd (by rwa [hstep] at hcode) hkind
      rw [hstep] at hkind' htakes hin'
      rw [openBraces_plain fun h => absurd h hkind] at hin'
      obtain ⟨s₁', hreads, hin''⟩ := ih hin' htrack hk
      exact ⟨s₁', .two (Step.eq_mk hkind' htakes) hreads, hin''⟩

/-- A search for the closer of a brace goes on behind two marks alike. -/
theorem closeIn_mark {kind : Kind} {ms ms' : List Mark} (hdepth : depth < k)
    (h : closeIn '\x7b' '\x7d' depth (codeOf (⟨n, c, kind⟩ :: ms)) = some close)
    (hms : ∀ depth < openBraces k kind c,
      closeIn '\x7b' '\x7d' depth (codeOf ms) = some close →
        closeIn '\x7b' '\x7d' depth (codeOf ms') = some close) :
    closeIn '\x7b' '\x7d' depth (codeOf (⟨n, c, kind⟩ :: ms')) = some close := by
  cases kind with
  | comment => exact hms _ (by rwa [openBraces_plain Kind.noConfusion]) h
  | literal => exact hms _ (by rwa [openBraces_plain Kind.noConfusion]) h
  | code =>
      rw [codeOf_cons_code] at h ⊢
      by_cases ho : c = '\x7b'
      · subst ho
        have hopen := closeIn_opener .brace depth n
        rw [Bracket.opener, Bracket.closer] at hopen
        rw [hopen] at h ⊢
        exact hms _ (by rw [openBraces, if_pos rfl, if_pos rfl]; omega) h
      by_cases hc : c = '\x7d'
      · subst hc
        cases depth with
        | zero => exact h
        | succ depth =>
            refine hms depth ?_ h
            rw [openBraces, if_pos rfl, if_neg (by decide), if_pos rfl]
            omega
      · have hother := closeIn_other (b := .brace) ho hc depth n
        rw [Bracket.opener, Bracket.closer] at hother
        rw [hother] at h ⊢
        exact hms _ (by rwa [openBraces_plain fun _ => ⟨ho, hc⟩]) h

/-- The closer of a brace is the same one inside of further regions. -/
theorem closeIn_inside : ∀ (t : Text) {s s' : State} {n k depth : Nat}, Inside k s s' → depth < k →
    closeIn '\x7b' '\x7d' depth (codeOf (marksFrom s n t)) = some close →
      closeIn '\x7b' '\x7d' depth (codeOf (marksFrom s' n t)) = some close
  | [], _, _, _, _, _, _, _, h => h
  | [c], s, s', n, k, depth, hin, hdepth, h => by
      obtain ⟨hkind, -⟩ := State.step_inside hin c none fun hk => absurd hk (by omega)
      rw [marksFrom, hkind]
      exact h
  | c :: d :: t, s, s', n, k, depth, hin, hdepth, h => by
      obtain ⟨hkind, htakes, hin'⟩ :=
        State.step_inside hin c (some d) fun hk => absurd hk (by omega)
      cases hr : (s.step c (some d)).takesNext with
      | true =>
          have hne : (s.step c (some d)).kind ≠ .code := fun hk => by
            rw [(State.of_step_code hk).2.2.2] at hr
            cases hr
          rw [openBraces_plain fun h => absurd h hne] at hin'
          rw [marksFrom_two n hr] at h
          rw [marksFrom_two n (htakes.trans hr), hkind]
          refine closeIn_mark hdepth h fun depth hdepth h =>
            closeIn_mark hdepth h fun depth hdepth h =>
            closeIn_inside t hin' ?_ h
          rwa [openBraces_plain fun h => absurd h hne, openBraces_plain fun h => absurd h hne]
            at hdepth
      | false =>
          rw [marksFrom_one n (t := d :: t) hr] at h
          rw [marksFrom_one n (t := d :: t) (htakes.trans hr), List.head?_cons, hkind]
          exact closeIn_mark hdepth h fun depth hdepth h => closeIn_inside (d :: t) hin' hdepth h

end ServiceGate.Scan
