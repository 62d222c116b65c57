/-
# The run of the repairs

Every repair is a step of one run: it is skipped if its code was not reported or if it has nothing
to change, and what it leaves is what the next one gets.  `runSteps_skip` and `runSteps_move` say
what one step does; the inductions over the steps rest on them alone.

From them:

    (runSteps …).2 = [] ↔ no reported step moves the text     -- `applied_eq_nil_iff`
    (runSteps …).2 is a sublist of the reported codes         -- `applied_sublist`
    a code that was applied had its turn                      -- `exists_turn_of_mem_applied`
    what a run has lost, one of its turns has lost            -- `exists_turn_of_lost`

A `Turn` is a step with the text that it gets and the one that it leaves.  Whatever is said of a
single repair is so said of a run at one of its turns.

A repair runs them all on a balanced text and gives up a result that is not balanced
(`apply_cases`); so it keeps balance (`balanced_apply`) and depends on repairable codes only
(`apply_congr`).
-/
import ServiceGate.Repair.Basic

namespace ServiceGate.Repair

variable {policy : Policy} {codes : List String} {rest : List (String × Repairer)} {t : Text}

/-! ## The steps one after the other -/

/-- Whether a step runs and changes the text. -/
def Moves (policy : Policy) (codes : List String) (t : Text) (s : String × Repairer) : Prop :=
  s.1 ∈ codes ∧ runStep? policy s.2 t ≠ none

theorem runStep?_ne {step : Repairer} {new : Text} (h : runStep? policy step t = some new) :
    new ≠ t := by
  rw [runStep?] at h
  obtain ⟨out, -, hout⟩ := Option.bind_eq_some_iff.mp h
  by_cases heq : out = t
  · rw [if_pos heq] at hout
    cases hout
  · rw [if_neg heq] at hout
    cases hout
    exact heq

theorem eq_some_of_runStep? {step : Repairer} {u : Text} (h : runStep? policy step t = some u) :
    step policy t = some u := by
  rw [runStep?] at h
  obtain ⟨out, hout, h⟩ := Option.bind_eq_some_iff.mp h
  split at h
  · cases h
  · rw [hout, Option.some.inj h]

theorem runSteps_skip {s : String × Repairer} (h : ¬ Moves policy codes t s) :
    runSteps policy codes (s :: rest) t = runSteps policy codes rest t := by
  obtain ⟨code, step⟩ := s
  have hnone : (if codes.contains code then runStep? policy step t else none) = none := by
    by_cases hc : code ∈ codes
    · rw [if_pos (List.contains_iff_mem.mpr hc)]
      exact Classical.not_not.mp fun hm => h ⟨hc, hm⟩
    · rw [if_neg fun hm => hc (List.contains_iff_mem.mp hm)]
  rw [runSteps, hnone]

theorem runSteps_move {s : String × Repairer} {new : Text} (hc : s.1 ∈ codes)
    (hnew : runStep? policy s.2 t = some new) :
    runSteps policy codes (s :: rest) t =
      ((runSteps policy codes rest new).1, s.1 :: (runSteps policy codes rest new).2) := by
  obtain ⟨code, step⟩ := s
  rw [runSteps, if_pos (List.contains_iff_mem.mpr hc), hnew]

theorem step_cases (policy : Policy) (codes : List String) (t : Text) (s : String × Repairer) :
    ¬ Moves policy codes t s ∨ ∃ new, s.1 ∈ codes ∧ runStep? policy s.2 t = some new := by
  by_cases h : Moves policy codes t s
  · exact .inr (by
      obtain ⟨new, hnew⟩ := Option.ne_none_iff_exists'.mp h.2
      exact ⟨new, h.1, hnew⟩)
  · exact .inl h

/-- One run after another. -/
theorem runSteps_append (l' : List (String × Repairer)) :
    ∀ (l : List (String × Repairer)) (t : Text), runSteps policy codes (l ++ l') t =
      ((runSteps policy codes l' (runSteps policy codes l t).1).1,
        (runSteps policy codes l t).2 ++ (runSteps policy codes l' (runSteps policy codes l t).1).2)
  | [], _ => rfl
  | s :: l, t => by
      rw [List.cons_append]
      rcases step_cases policy codes t s with hskip | ⟨new, hc, hnew⟩
      · rw [runSteps_skip hskip, runSteps_skip hskip, runSteps_append l' l t]
      · rw [runSteps_move hc hnew, runSteps_move hc hnew, runSteps_append l' l new]
        rfl

theorem forall_turns {l : List (String × Repairer)} {P : Nat → String → Prop}
    (turns : List (String × Nat)) (hturns : (l.map Prod.fst).zipIdx.filter (·.1 ∈ codes) = turns)
    (h : ∀ x ∈ turns, P x.2 x.1) :
    ∀ k s, l[k]? = some s → s.1 ∈ codes → P k s.1 := by
  intro k s hk hc
  have hmem : (s.1, k) ∈ (l.map Prod.fst).zipIdx := by
    rw [List.mem_zipIdx_iff_getElem?, List.getElem?_map, hk]
    rfl
  refine h (s.1, k) (hturns ▸ List.mem_filter.mpr ⟨hmem, ?_⟩)
  simpa using hc

/-- The codes that a run has applied are reported ones, in the order of the steps. -/
theorem applied_sublist :
    ∀ (l : List (String × Repairer)) (t : Text),
      ((runSteps policy codes l t).2).Sublist ((l.map Prod.fst).filter (· ∈ codes))
  | [], _ => List.Sublist.slnil
  | s :: l, t => by
      rw [List.map_cons]
      rcases step_cases policy codes t s with hskip | ⟨new, hc, hnew⟩
      · rw [runSteps_skip hskip]
        exact (applied_sublist l t).trans ((List.sublist_cons_self s.1 _).filter _)
      · rw [runSteps_move hc hnew, List.filter_cons_of_pos (by simpa using hc)]
        exact (applied_sublist l new).cons_cons s.1

/-- A run that applies nothing has moved nothing. -/
theorem text_of_applied_nil :
    ∀ {l : List (String × Repairer)} {t : Text},
      (runSteps policy codes l t).2 = [] → (runSteps policy codes l t).1 = t
  | [], _, _ => rfl
  | s :: l, t, h => by
      rcases step_cases policy codes t s with hskip | ⟨new, hc, hnew⟩
      · rw [runSteps_skip hskip] at h ⊢
        exact text_of_applied_nil h
      · rw [runSteps_move hc hnew] at h
        exact absurd h (List.cons_ne_nil _ _)

theorem applied_eq_nil_iff :
    ∀ {l : List (String × Repairer)} {t : Text},
      (runSteps policy codes l t).2 = [] ↔ ∀ s ∈ l, ¬ Moves policy codes t s
  | [], _ => ⟨fun _ _ h => absurd h List.not_mem_nil, fun _ => rfl⟩
  | s :: l, t => by
      rw [List.forall_mem_cons]
      rcases step_cases policy codes t s with hskip | ⟨new, hc, hnew⟩
      · rw [runSteps_skip hskip, applied_eq_nil_iff]
        exact ⟨fun h => ⟨hskip, h⟩, fun h => h.2⟩
      · rw [runSteps_move hc hnew]
        constructor
        · intro h
          exact absurd h (List.cons_ne_nil _ _)
        · intro h
          exact absurd ⟨hc, by rw [hnew]; exact Option.some_ne_none new⟩ h.1

/-- A run that applies one step has moved the text; only a second one could take that back. -/
theorem text_ne_of_applied_one {c : String} :
    ∀ {l : List (String × Repairer)} {t : Text},
      (runSteps policy codes l t).2 = [c] → (runSteps policy codes l t).1 ≠ t
  | [], _, h => absurd h.symm (List.cons_ne_nil _ _)
  | s :: l, t, h => by
      rcases step_cases policy codes t s with hskip | ⟨new, hc, hnew⟩
      · rw [runSteps_skip hskip] at h ⊢
        exact text_ne_of_applied_one h
      · rw [runSteps_move hc hnew] at h ⊢
        have hrest : (runSteps policy codes l new).2 = [] := (List.cons.inj h).2
        show (runSteps policy codes l new).1 ≠ t
        rw [text_of_applied_nil hrest]
        exact runStep?_ne hnew

/-- A run looks at the codes of its steps only. -/
theorem runSteps_congr {codes' : List String} :
    ∀ {l : List (String × Repairer)} (t : Text), (∀ s ∈ l, s.1 ∈ codes ↔ s.1 ∈ codes') →
      runSteps policy codes l t = runSteps policy codes' l t
  | [], _, _ => rfl
  | s :: l, t, h => by
      obtain ⟨hs, hl⟩ := List.forall_mem_cons.mp h
      rcases step_cases policy codes t s with hskip | ⟨new, hc, hnew⟩
      · have hskip' : ¬ Moves policy codes' t s := fun hm => hskip ⟨hs.mpr hm.1, hm.2⟩
        rw [runSteps_skip hskip, runSteps_skip hskip']
        exact runSteps_congr t hl
      · rw [runSteps_move hc hnew, runSteps_move (hs.mp hc) hnew, runSteps_congr new hl]

theorem runSteps_of_notMem {l : List (String × Repairer)} (h : ∀ s ∈ l, s.1 ∉ codes) (t : Text) :
    runSteps policy codes l t = (t, []) := by
  have hnil : (runSteps policy codes l t).2 = [] :=
    applied_eq_nil_iff.mpr fun s hs hmoves => h s hs hmoves.1
  exact Prod.ext (text_of_applied_nil hnil) hnil

theorem runSteps_single {l : List (String × Repairer)} (hl : (l.map Prod.fst).Nodup)
    {s : String × Repairer} (hs : s ∈ l) {u : Text} (hu : runStep? policy s.2 t = some u) :
    runSteps policy [s.1] l t = (u, [s.1]) := by
  obtain ⟨front, behind, rfl⟩ := List.append_of_mem hs
  rw [List.map_append, List.map_cons, List.nodup_append] at hl
  obtain ⟨-, hbehind, hfront⟩ := hl
  have hfront : ∀ s' ∈ front, s'.1 ∉ [s.1] := fun s' hs' hc =>
    hfront _ (List.mem_map_of_mem hs') _ List.mem_cons_self (List.mem_singleton.mp hc)
  have hbehind : ∀ s' ∈ behind, s'.1 ∉ [s.1] := fun s' hs' hc =>
    (List.nodup_cons.mp hbehind).1 (List.mem_singleton.mp hc ▸ List.mem_map_of_mem hs')
  rw [runSteps_append, runSteps_of_notMem hfront, runSteps_move (List.mem_singleton_self _) hu,
    runSteps_of_notMem hbehind]
  rfl

/-! ## Turns -/

/-- The turn of a step behind some others: the text that it gets, and the one that it leaves. -/
structure Turn (policy : Policy) (codes : List String) (front : List (String × Repairer)) (t : Text)
    (s : String × Repairer) (u w : Text) : Prop where
  reported : s.1 ∈ codes
  text : (runSteps policy codes front t).1 = u
  moves : runStep? policy s.2 u = some w

namespace Turn

variable {front : List (String × Repairer)} {s s' : String × Repairer} {u w new : Text}

theorem step (h : Turn policy codes front t s u w) : s.2 policy u = some w :=
  eq_some_of_runStep? h.moves

theorem run_behind (h : Turn policy codes front t s u w) (behind : List (String × Repairer)) :
    (runSteps policy codes (front ++ s :: behind) t).1 = (runSteps policy codes behind w).1 := by
  rw [runSteps_append, h.text, runSteps_move h.reported h.moves]

theorem of_skip (hskip : ¬ Moves policy codes t s) (h : Turn policy codes front t s' u w) :
    Turn policy codes (s :: front) t s' u w :=
  ⟨h.reported, by rw [runSteps_skip hskip, h.text], h.moves⟩

theorem of_move (hc : s.1 ∈ codes) (hnew : runStep? policy s.2 t = some new)
    (h : Turn policy codes front new s' u w) : Turn policy codes (s :: front) t s' u w :=
  ⟨h.reported, by rw [runSteps_move hc hnew, h.text], h.moves⟩

end Turn

/-- A code that a run has applied had its turn. -/
theorem exists_turn_of_mem_applied {c : String} : ∀ {l : List (String × Repairer)} {t : Text},
    c ∈ (runSteps policy codes l t).2 → ∃ front s behind u w, l = front ++ s :: behind ∧ s.1 = c ∧
      Turn policy codes front t s u w
  | [], _, h => absurd h List.not_mem_nil
  | s :: l, t, h => by
      rcases step_cases policy codes t s with hskip | ⟨new, hc, hnew⟩
      · rw [runSteps_skip hskip] at h
        obtain ⟨front, s', behind, u, w, rfl, hsame, hturn⟩ := exists_turn_of_mem_applied h
        exact ⟨s :: front, s', behind, u, w, rfl, hsame, hturn.of_skip hskip⟩
      · rw [runSteps_move hc hnew] at h
        rcases List.mem_cons.mp h with rfl | h
        · exact ⟨[], s, l, t, new, rfl, rfl, hc, rfl, hnew⟩
        · obtain ⟨front, s', behind, u, w, rfl, hsame, hturn⟩ := exists_turn_of_mem_applied h
          exact ⟨s :: front, s', behind, u, w, rfl, hsame, hturn.of_move hc hnew⟩

/-- What a run has lost, one of its turns has lost. -/
theorem exists_turn_of_lost {P : Text → Prop} : ∀ {l : List (String × Repairer)} {t : Text}, P t →
    ¬ P (runSteps policy codes l t).1 → ∃ front s behind u w, l = front ++ s :: behind ∧
      Turn policy codes front t s u w ∧ P u ∧ ¬ P w
  | [], _, ht, hlost => absurd ht hlost
  | s :: l, t, ht, hlost => by
      rcases step_cases policy codes t s with hskip | ⟨new, hc, hnew⟩
      · rw [runSteps_skip hskip] at hlost
        obtain ⟨front, s', behind, u, w, rfl, hturn, hPu, hPw⟩ := exists_turn_of_lost ht hlost
        exact ⟨s :: front, s', behind, u, w, rfl, hturn.of_skip hskip, hPu, hPw⟩
      · rw [runSteps_move hc hnew] at hlost
        by_cases hP : P new
        · obtain ⟨front, s', behind, u, w, rfl, hturn, hPu, hPw⟩ := exists_turn_of_lost hP hlost
          exact ⟨s :: front, s', behind, u, w, rfl, hturn.of_move hc hnew, hPu, hPw⟩
        · exact ⟨[], s, l, t, new, rfl, ⟨hc, rfl, hnew⟩, ht, hP⟩

/-! ## One repair of a text -/

/-- A repair leaves alone what is not balanced, hands out what the steps have made of the text, or
gives it up. -/
theorem apply_cases (policy : Policy) (codes : List String) (t : Text) :
    (Scan.balanced t = false ∧ apply policy codes t = ⟨t, [], false⟩) ∨
    (Scan.balanced t = true ∧ Scan.balanced (runSteps policy codes steps t).1 = true ∧
      apply policy codes t =
        ⟨(runSteps policy codes steps t).1, (runSteps policy codes steps t).2, false⟩) ∨
    (Scan.balanced t = true ∧ Scan.balanced (runSteps policy codes steps t).1 = false ∧
      apply policy codes t = ⟨t, [], true⟩) := by
  cases ht : Scan.balanced t with
  | false => exact .inl ⟨rfl, by rw [apply, ht]; rfl⟩
  | true =>
      cases hout : Scan.balanced (runSteps policy codes steps t).1 with
      | true => exact .inr (.inl ⟨rfl, rfl, by simp only [apply, ht, hout]; rfl⟩)
      | false => exact .inr (.inr ⟨rfl, rfl, by simp only [apply, ht, hout]; rfl⟩)

theorem balanced_apply (policy : Policy) (codes : List String) (t : Text) :
    Scan.balanced (apply policy codes t).text = Scan.balanced t := by
  rcases apply_cases policy codes t with ⟨-, h⟩ | ⟨ht, hout, h⟩ | ⟨-, -, h⟩
  · rw [h]
  · rw [h, ht, hout]
  · rw [h]

theorem apply_of_applied_nil (h : (apply policy codes t).applied = []) :
    (apply policy codes t).text = t := by
  rcases apply_cases policy codes t with ⟨-, h'⟩ | ⟨-, -, h'⟩ | ⟨-, -, h'⟩
  · rw [h']
  · rw [h'] at h ⊢
    exact text_of_applied_nil h
  · rw [h']

theorem apply_of_applied_one {c : String} (h : (apply policy codes t).applied = [c]) :
    (apply policy codes t).text ≠ t := by
  rcases apply_cases policy codes t with ⟨-, h'⟩ | ⟨-, -, h'⟩ | ⟨-, -, h'⟩
  · rw [h'] at h
    cases h
  · rw [h'] at h ⊢
    exact text_ne_of_applied_one h
  · rw [h'] at h
    cases h

/-- A repair applies nothing to what is not balanced, where it is given up, and where no step moves
the text. -/
theorem applied_apply_eq_nil_iff :
    (apply policy codes t).applied = [] ↔
      Scan.balanced t = false ∨ (apply policy codes t).reverted = true ∨
        ∀ s ∈ steps, ¬ Moves policy codes t s := by
  rcases apply_cases policy codes t with ⟨ht, h⟩ | ⟨ht, -, h⟩ | ⟨ht, -, h⟩
  · rw [h]
    exact ⟨fun _ => .inl ht, fun _ => rfl⟩
  · rw [h, ht, applied_eq_nil_iff]
    simp
  · rw [h]
    exact ⟨fun _ => .inr (.inl rfl), fun _ => rfl⟩

theorem map_fst_steps : steps.map Prod.fst = Rule.fixableCodes := rfl

theorem nodup_steps : (steps.map Prod.fst).Nodup := by
  decide

theorem applied_apply_sublist (policy : Policy) (codes : List String) (t : Text) :
    (apply policy codes t).applied.Sublist (Rule.fixableCodes.filter (· ∈ codes)) := by
  rw [← map_fst_steps]
  rcases apply_cases policy codes t with ⟨-, h⟩ | ⟨-, -, h⟩ | ⟨-, -, h⟩
  · rw [h]
    exact List.nil_sublist _
  · rw [h]
    exact applied_sublist steps t
  · rw [h]
    exact List.nil_sublist _

theorem isFixable_of_mem_applied {c : String} (h : c ∈ (apply policy codes t).applied) :
    c ∈ codes ∧ Rule.isFixable c = true := by
  obtain ⟨hfix, hcode⟩ := List.mem_filter.mp ((applied_apply_sublist policy codes t).mem h)
  exact ⟨of_decide_eq_true hcode, List.contains_iff_mem.mpr hfix⟩

theorem isFixable_of_mem_steps {s : String × Repairer} (hs : s ∈ steps) :
    Rule.isFixable s.1 = true :=
  List.contains_iff_mem.mpr (map_fst_steps ▸ List.mem_map_of_mem hs)

theorem apply_congr {codes' : List String}
    (h : ∀ c, Rule.isFixable c = true → (c ∈ codes ↔ c ∈ codes')) :
    apply policy codes t = apply policy codes' t := by
  have hsteps : runSteps policy codes steps t = runSteps policy codes' steps t :=
    runSteps_congr t fun s hs => h s.1 (isFixable_of_mem_steps hs)
  rw [apply, apply, hsteps]

theorem apply_of_unfixable (h : ∀ c ∈ codes, Rule.isFixable c = false) :
    apply policy codes t = ⟨t, [], false⟩ := by
  have hrun : runSteps policy codes steps t = (t, []) :=
    runSteps_of_notMem (fun s hs hc => Bool.false_ne_true
      ((h s.1 hc).symm.trans (isFixable_of_mem_steps hs))) t
  rcases apply_cases policy codes t with ⟨-, h'⟩ | ⟨-, -, h'⟩ | ⟨ht, hout, -⟩
  · exact h'
  · rw [h', hrun]
  · rw [hrun, ht] at hout
    cases hout

end ServiceGate.Repair
