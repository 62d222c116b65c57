/-
# Exchanging a stretch of a text

Behind a place that the scan comes to in state `s` two texts count alike for balance if their code
changes the depths alike and the scan ends inside of a literal with both or with neither (`Alike
s`).

A stretch is `Closed` if a scan that comes to it in code outside of all templates leaves it there
again, with every bracket closed, whatever follows.  Where a part of the text ends in such code
(`EndsInCode`), one closed stretch can be put in the place of another (`balanced_exchange`).
-/
import ServiceGate.Proofs.Scan.WellNested
import ServiceGate.Proofs.Text.Bounds

namespace ServiceGate.Scan

variable {rest rest' p q t u v : Text} {s s' s₁ s₂ : State} {n m : Nat} {c : Char}
  {ms ms' : List Mark}

/-! ## What follows a stretch -/

theorem State.step_none (s : State) (c : Char) : (s.step c none).takesNext = false := by
  obtain ⟨mode, regions, last⟩ := s
  cases mode with
  | lineComment => rfl
  | blockComment =>
      simp only [State.step, State.stepBlockComment]
      split_ifs with h
      · simp at h
      · rfl
  | string quote =>
      simp only [State.step, State.stepString]
      split_ifs with _ _ h
      · rfl
      · rfl
      · simp at h
      · rfl
  | code =>
      simp only [State.step, State.stepCode]
      split_ifs with h h'
      · simp at h
      · simp at h'
      · rfl
      · cases regions <;> rfl
      · cases regions with
        | nil => rfl
        | cons d regions => cases d <;> rfl
      · rfl

theorem State.step_detach {k : Kind} {next next' : Option Char} (h : s.step c next = ⟨k, s', false⟩)
    (hs' : s'.mode = .code) (hc : opensComment c next' = false) :
    s.step c next' = ⟨k, s', false⟩ := by
  obtain ⟨mode, regions, last⟩ := s
  cases mode with
  | lineComment => exact h
  | blockComment =>
      simp only [State.step, State.stepBlockComment] at h
      split_ifs at h
      · cases h
      · cases h
        cases hs'
  | string quote =>
      simp only [State.step, State.stepString] at h ⊢
      by_cases hb : (c == '\\') = true
      · rw [if_pos hb] at h
        obtain ⟨-, rfl, -⟩ := Step.mk.inj h
        cases hs'
      by_cases hq : (c == quote) = true
      · rw [if_neg hb, if_pos hq] at h ⊢
        exact h
      · rw [if_neg hb, if_neg hq] at h
        split_ifs at h
        · cases h
        · cases h
          cases hs'
  | code =>
      simp only [opensComment, Bool.and_eq_false_iff, Bool.or_eq_false_iff] at hc
      simp only [State.step, State.stepCode] at h ⊢
      split_ifs at h ⊢ <;> simp_all

namespace Reads

theorem congr_head (h : Reads rest s n t ms s') (hrest : rest'.head? = rest.head?) :
    Reads rest' s n t ms s' := by
  induction h with
  | nil => exact .nil
  | @one _ _ _ _ c t _ _ hstep _ ih =>
      refine .one ?_ ih
      rw [← hstep]
      cases t with
      | nil => rw [List.nil_append, List.nil_append, hrest]
      | cons d t => rfl
  | two hstep _ ih => exact .two hstep ih

theorem detach (h : Reads rest s n t ms s') (hs' : s'.mode = .code)
    (hlast : ∀ c, t.getLast? = some c → opensComment c rest'.head? = false) :
    Reads rest' s n t ms s' := by
  induction h with
  | nil => exact .nil
  | @one s s₁ _ n c t k ms hstep htail ih =>
      cases t with
      | nil =>
          cases htail
          exact .one (State.step_detach hstep hs' (hlast c rfl)) .nil
      | cons d t => exact .one hstep (ih hs' fun c hc => hlast c (by rw [← hc]; rfl))
  | @two s s₁ _ n c d t k ms hstep htail ih =>
      refine .two hstep (ih hs' fun c hc => hlast c ?_)
      cases t with
      | nil => cases hc
      | cons e t => rw [← hc]; rfl

end Reads

/-- A text is read in front of something as it is read alone if its last character is. -/
theorem reads_of_last {rest : Text} : ∀ (t : Text) {s : State} (n : Nat),
    (∀ (s₁ : State) (c : Char), t.getLast? = some c → (s₁.step c none).state = s.after t →
      s₁.step c rest.head? = s₁.step c none) →
    Reads rest s n t (marksFrom s n t) (s.after t)
  | [], _, _, _ => .nil
  | [c], s, n, hlast => by
      refine .one ?_ .nil
      rw [List.nil_append, hlast s c rfl rfl, ← State.step_none s c]
      rfl
  | c :: d :: t, s, n, hlast => by
      cases hr : (s.step c (some d)).takesNext with
      | true =>
          rw [State.after_two hr] at hlast ⊢
          rw [marksFrom_two n hr]
          refine .two (by rw [← hr]) (reads_of_last t _ fun s₁ x hx => hlast s₁ x ?_)
          cases t with
          | nil => cases hx
          | cons e t => rw [← hx]; rfl
      | false =>
          rw [State.after_one (t := d :: t) hr] at hlast ⊢
          rw [marksFrom_one n (t := d :: t) hr]
          exact .one (by rw [← hr]; rfl)
            (reads_of_last (d :: t) _ fun s₁ x hx => hlast s₁ x (by rw [← hx]; rfl))

/-- A text after which the scan is in code is read so in front of anything, unless it ends with a
slash. -/
theorem reads_of_after (t : Text) {s : State} (n : Nat) (hmode : (s.after t).mode = .code)
    (hslash : t.getLast? ≠ some '/') (rest : Text) :
    Reads rest s n t (marksFrom s n t) (s.after t) := by
  refine reads_of_last t n fun s₁ c hc hstate => ?_
  have hone : s₁.step c none = ⟨(s₁.step c none).kind, (s₁.step c none).state, false⟩ := by
    rw [← State.step_none s₁ c]
  have hne : c ≠ '/' := fun h => hslash (by rw [hc, h])
  rw [← hstate] at hmode
  rw [State.step_detach hone hmode (by simp [opensComment, hne]), ← hone]

theorem State.step_newline (h : (s.step c none).state.inString = false) :
    s.step c (some '\n') = s.step c none := by
  obtain ⟨mode, regions, last⟩ := s
  cases mode with
  | lineComment => rfl
  | blockComment => simp [State.step, State.stepBlockComment]
  | string quote =>
      by_cases hb : (c == '\\') = true
      · simp only [State.step, State.stepString, hb, if_true] at h
        cases h
      · simp [State.step, State.stepString, hb]
  | code => simp [State.step, State.stepCode]

theorem reads_of_newline (t : Text) {s : State} (n : Nat) (h : (s.after t).inString = false)
    (rest : Text) : Reads ('\n' :: rest) s n t (marksFrom s n t) (s.after t) :=
  reads_of_last t n fun _ _ _ hstate => State.step_newline (by rw [hstate, h])

/-! ## What a text counts for -/

def codeText (ms : List Mark) : Text := (codeOf ms).map (·.2)

@[simp]
theorem codeText_append (ms ms' : List Mark) :
    codeText (ms ++ ms') = codeText ms ++ codeText ms' := by
  rw [codeText, codeOf_append, List.map_append]
  rfl

theorem codeText_cons (n : Nat) (c : Char) (k : Kind) (ms : List Mark) :
    codeText (⟨n, c, k⟩ :: ms) = if k = .code then c :: codeText ms else codeText ms := by
  cases k <;> rfl

theorem codeText_marksFrom : ∀ (t : Text) (s : State) (n m : Nat),
    codeText (marksFrom s n t) = codeText (marksFrom s m t)
  | [], _, _, _ => rfl
  | [c], s, n, m => by rw [marksFrom, marksFrom, codeText_cons, codeText_cons]
  | c :: d :: t, s, n, m => by
      cases hr : (s.step c (some d)).takesNext with
      | true =>
          rw [marksFrom_two n hr, marksFrom_two m hr]
          simp only [codeText_cons]
          rw [codeText_marksFrom t _ _ (m + c.utf8Size + d.utf8Size)]
      | false =>
          rw [marksFrom_one n (t := d :: t) hr, marksFrom_one m (t := d :: t) hr]
          simp only [codeText_cons]
          rw [codeText_marksFrom (d :: t) _ _ (m + c.utf8Size)]

theorem State.after_agrees :
    ∀ (t : Text) {s s' : State}, s.Agrees s' → (s.after t).Agrees (s'.after t)
  | [], _, _, h => h
  | [c], _, _, h => (State.step_agrees h c none).2.2
  | c :: d :: t, s, s', h => by
      obtain ⟨-, ht, hs⟩ := State.step_agrees h c (some d)
      cases hr : (s.step c (some d)).takesNext with
      | true =>
          rw [State.after_two hr, State.after_two (ht.trans hr)]
          exact State.after_agrees t hs
      | false =>
          rw [State.after_one (t := d :: t) hr, State.after_one (t := d :: t) (ht.trans hr)]
          exact State.after_agrees (d :: t) hs

theorem State.Agrees.inLiteral_eq (h : s.Agrees s') : s.inLiteral = s'.inLiteral := by
  rw [State.inLiteral, State.inLiteral, State.inString, State.inString, h.1, h.2]

theorem State.Agrees.symm (h : s.Agrees s') : s'.Agrees s := ⟨h.1.symm, h.2.symm⟩

theorem State.Agrees.trans (h : s.Agrees s₁) (h' : s₁.Agrees s₂) : s.Agrees s₂ :=
  ⟨h.1.trans h'.1, h.2.trans h'.2⟩

/-- From state `s` on, two texts count alike for balance. -/
structure Alike (s : State) (t u : Text) : Prop where
  trackAll : ∀ d : Depths,
    d.trackAll (codeText (marksFrom s 0 t)) = d.trackAll (codeText (marksFrom s 0 u))
  inLiteral : (s.after t).inLiteral = (s.after u).inLiteral

namespace Alike

theorem balanced_eq (h : Alike .start t u) : balanced t = balanced u := by
  have hcode : ∀ t : Text, (codeChars t 0).map (·.2) = codeText (marksFrom .start 0 t) := fun t =>
    by
    rw [codeChars_eq, marks_zero, codeText]
  rw [balanced, balanced, hcode, hcode, h.trackAll, finalState, finalState, h.inLiteral]

/-- Behind a part that is read alike in front of both. -/
theorem append (h : Alike s' t u) (ht : Reads t s n p ms s') (hu : Reads u s n p ms s') :
    Alike s (p ++ t) (p ++ u) where
  trackAll d := by
    rw [codeText_marksFrom _ s 0 n, codeText_marksFrom _ s 0 n, ht.marksFrom_eq, hu.marksFrom_eq,
      codeText_append, codeText_append, Depths.trackAll_append, Depths.trackAll_append,
      codeText_marksFrom t s' _ 0, codeText_marksFrom u s' _ 0]
    cases d.trackAll (codeText ms) with
    | none => rfl
    | some d' => exact h.trackAll d'
  inLiteral := by rw [ht.after_eq, hu.after_eq, h.inLiteral]

/-- Two stretches with the same effect, in front of the same rest. -/
theorem exchange (ht : Reads q s n t ms s₁) (hu : Reads q s m u ms' s₂) (hs : s₁.Agrees s₂)
    (htrack : ∀ d : Depths, d.trackAll (codeText ms) = d.trackAll (codeText ms')) :
    Alike s (t ++ q) (u ++ q) where
  trackAll d := by
    rw [codeText_marksFrom _ s 0 n, codeText_marksFrom (u ++ q) s 0 m, ht.marksFrom_eq,
      hu.marksFrom_eq, codeText_append, codeText_append, Depths.trackAll_append,
      Depths.trackAll_append, htrack, marksFrom_agrees q _ hs, codeText_marksFrom q s₁ _ 0,
      codeText_marksFrom q s₁ (m + Text.size u) 0]
  inLiteral := by
    rw [ht.after_eq, hu.after_eq]
    exact (State.after_agrees q hs).inLiteral_eq

end Alike

/-! ## Closed stretches -/

/-- A scan that comes to the stretch in code outside of all templates leaves it there again, with
every bracket closed, whatever follows. -/
def Closed (t : Text) : Prop :=
  ∀ (rest : Text) (s : State) (n : Nat), s.Agrees .start → ∃ ms s', Reads rest s n t ms s' ∧
    s'.Agrees .start ∧ ∀ d : Depths, d.trackAll (codeText ms) = some d

namespace Closed

theorem nil : Closed [] := fun _ s _ hs => ⟨[], s, .nil, hs, fun _ => rfl⟩

theorem append (h : Closed t) (h' : Closed u) : Closed (t ++ u) := by
  intro rest s n hs
  obtain ⟨ms, s₁, hms, hs₁, hd⟩ := h (u ++ rest) s n hs
  obtain ⟨ms', s₂, hms', hs₂, hd'⟩ := h' rest s₁ (n + Text.size t) hs₁
  refine ⟨ms ++ ms', s₂, hms.append hms', hs₂, fun d => ?_⟩
  rw [codeText_append, Depths.trackAll_append, hd, Option.bind_some, hd']

theorem group (b : Bracket) (h : Closed t) : Closed (b.opener :: (t ++ [b.closer])) := by
  intro rest s n hs
  obtain ⟨mode, regions, last⟩ := s
  obtain ⟨rfl, rfl⟩ := hs
  obtain ⟨ms, ⟨mode, regions, last'⟩, hms, ⟨rfl, rfl⟩, hd⟩ :=
    h ([b.closer] ++ rest) ⟨.code, [], last⟩ (n + b.opener.utf8Size) ⟨rfl, rfl⟩
  have henter : b.enter [] = [] := by cases b <;> rfl
  have hopen : State.step ⟨.code, [], last⟩ b.opener (t ++ [b.closer] ++ rest).head? =
      ⟨.code, ⟨.code, b.enter [], last⟩, false⟩ := step_opener b
  have hclose : State.step ⟨.code, b.enter [], last'⟩ b.closer rest.head? =
      ⟨.code, ⟨.code, [], last'⟩, false⟩ := step_closer b
  rw [henter] at hopen hclose
  refine ⟨_, _, .one hopen (.append hms (.one hclose .nil)), ⟨rfl, rfl⟩, fun d => ?_⟩
  have hinner : ∀ d' : Depths, d'.trackAll (codeText ms ++ [b.closer]) = d'.track b.closer :=
    fun d' => by
    rw [Depths.trackAll_append, hd, Option.bind_some, Depths.trackAll]
    cases d'.track b.closer <;> rfl
  rw [codeText_cons, if_pos rfl, codeText_append, codeText_cons, if_pos rfl, Depths.trackAll]
  cases b <;> exact hinner _

end Closed

/-- A part of a text behind which the scan is in code outside of all templates, and whose last sign
no comment can start with. -/
def EndsInCode (t : Text) : Prop :=
  (State.start.after t).Agrees .start ∧ t.getLast? ≠ some '/'

instance (t : Text) : Decidable (EndsInCode t) :=
  inferInstanceAs (Decidable ((_ = _ ∧ _ = _) ∧ _ ≠ _))

/-- One closed stretch in the place of another. -/
theorem balanced_exchange (hp : EndsInCode p) (ht : Closed t) (hu : Closed u) (q : Text) :
    balanced (p ++ t ++ q) = balanced (p ++ u ++ q) := by
  obtain ⟨hagrees, hlast⟩ := hp
  obtain ⟨ms, s₁, hms, hs₁, hd⟩ := ht q (State.start.after p) 0 hagrees
  obtain ⟨ms', s₂, hms', hs₂, hd'⟩ := hu q (State.start.after p) 0 hagrees
  have hq : Alike (State.start.after p) (t ++ q) (u ++ q) :=
    .exchange hms hms' (hs₁.trans hs₂.symm) fun d => by rw [hd, hd']
  rw [List.append_assoc, List.append_assoc]
  exact (hq.append (reads_of_after p 0 hagrees.1 hlast _)
    (reads_of_after p 0 hagrees.1 hlast _)).balanced_eq

/-! ## Stretches that are closed by themselves -/

def Depths.over (d e : Depths) : Depths :=
  ⟨d.braces + e.braces, d.squares + e.squares, d.parens + e.parens⟩

theorem Depths.track_over {d d' : Depths} (e : Depths) (h : d.track c = some d') :
    (d.over e).track c = some (d'.over e) := by
  have hpred : ∀ {m n : Nat} (k : Nat), pred? m = some n → pred? (m + k) = some (n + k) :=
    fun k h => by
    rw [pred?_eq_some] at h ⊢
    omega
  unfold Depths.track at h ⊢
  split at h
  · cases h
    simp [Depths.over, Nat.add_right_comm]
  · cases h
    simp [Depths.over, Nat.add_right_comm]
  · cases h
    simp [Depths.over, Nat.add_right_comm]
  · obtain ⟨n, hn, rfl⟩ := Option.map_eq_some_iff.mp h
    simp [Depths.over, hpred _ hn]
  · obtain ⟨n, hn, rfl⟩ := Option.map_eq_some_iff.mp h
    simp [Depths.over, hpred _ hn]
  · obtain ⟨n, hn, rfl⟩ := Option.map_eq_some_iff.mp h
    simp [Depths.over, hpred _ hn]
  · cases h
    simp

theorem Depths.trackAll_over (e : Depths) : ∀ {cs : Text} {d d' : Depths},
    d.trackAll cs = some d' → (d.over e).trackAll cs = some (d'.over e)
  | [], _, _, h => by
      cases h
      rfl
  | c :: cs, d, d', h => by
      obtain ⟨d₁, hd₁, h⟩ := Option.bind_eq_some_iff.mp h
      rw [Depths.trackAll, Depths.track_over e hd₁, Option.bind_some]
      exact Depths.trackAll_over e h

/-- Whether a text, scanned by itself, ends in code with every bracket closed, and not with a
slash. -/
def isClosed (t : Text) : Bool :=
  decide (EndsInCode t) && Depths.trackAll ⟨0, 0, 0⟩ (codeText (marksFrom .start 0 t)) ==
    some ⟨0, 0, 0⟩

theorem closed_of_isClosed (h : isClosed t = true) : Closed t := by
  obtain ⟨hends, hzero⟩ := Bool.and_eq_true_iff.mp h
  obtain ⟨hagrees, hlast⟩ := of_decide_eq_true hends
  intro rest s n hs
  have hafter := State.after_agrees t hs
  refine ⟨_, _, reads_of_after t n (hafter.1.trans hagrees.1) hlast rest, hafter.trans hagrees,
    fun d => ?_⟩
  rw [← marksFrom_agrees t n hs, codeText_marksFrom t .start n 0]
  have hover := Depths.trackAll_over d (beq_iff_eq.mp hzero)
  simpa [Depths.over] using hover

end ServiceGate.Scan
