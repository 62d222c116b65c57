/-
# Text that no comma divides

`Depths.within` counts the brackets of a row of code characters and fails at a comma outside of all
of them.  A text is `Unbroken` if a scan of it starts and ends in code outside of templates, with
every bracket closed and no such comma.  Of a row in which every bracket is closed either no such
comma is part, or it is cut at the first one (`within_or_cut`); and a search for a closer passes
over the row (`closeIn_of_trackAll`).

A run over a part is a run over the part alone (`Reads.alone`), and can be cut at a code character
(`Reads.cut`).
-/
import ServiceGate.Proofs.Scan.Exchange

namespace ServiceGate.Scan

variable {s s' σ : State} {rest t u : Text} {n k : Nat} {c : Char} {next : Option Char}
  {ms ms₁ ms₂ : List Mark} {d d' e e' : Depths} {cs cs' : Text}

/-! ## Counting up to a comma -/

abbrev Depths.zero : Depths := ⟨0, 0, 0⟩

namespace Depths

/-- The depths behind a row of code characters; `none` at a comma outside of all groups. -/
def within (d : Depths) : Text → Option Depths
  | [] => some d
  | c :: rest => if c = ',' ∧ d = zero then none else (d.track c).bind (·.within rest)

theorem within_cons (h : ¬ (c = ',' ∧ d = zero)) :
    d.within (c :: cs) = (d.track c).bind (·.within cs) := by
  rw [within, if_neg h]

theorem within_append (d : Depths) (cs cs' : Text) :
    d.within (cs ++ cs') = (d.within cs).bind (·.within cs') := by
  induction cs generalizing d with
  | nil => rfl
  | cons c cs ih =>
      rw [List.cons_append, within, within]
      split_ifs
      · rfl
      · cases d.track c with
        | none => rfl
        | some d₁ => exact ih d₁

theorem trackAll_of_within (h : d.within cs = some d') : d.trackAll cs = some d' := by
  induction cs generalizing d with
  | nil => exact h
  | cons c cs ih =>
      rw [within] at h
      split_ifs at h
      obtain ⟨d₁, hd₁, h⟩ := Option.bind_eq_some_iff.mp h
      rw [trackAll, hd₁]
      exact ih h

theorem over_ne_zero (hd : d ≠ zero) (e : Depths) : e.over d ≠ zero := by
  intro h
  obtain ⟨h₁, h₂, h₃⟩ := Depths.mk.inj h
  refine hd ?_
  obtain ⟨braces, squares, parens⟩ := d
  simp only [Depths.mk.injEq]
  exact ⟨(Nat.add_eq_zero_iff.mp h₁).2, (Nat.add_eq_zero_iff.mp h₂).2,
    (Nat.add_eq_zero_iff.mp h₃).2⟩

theorem within_over (hd : d ≠ zero) (h : e.trackAll cs = some e') :
    (e.over d).within cs = some (e'.over d) := by
  induction cs generalizing e with
  | nil =>
      obtain rfl := Option.some.inj h
      rfl
  | cons c cs ih =>
      obtain ⟨e₁, he₁, h⟩ := Option.bind_eq_some_iff.mp h
      rw [within_cons fun hc => over_ne_zero hd e hc.2, track_over d he₁]
      exact ih h

theorem zero_over (d : Depths) : zero.over d = d := by
  simp [Depths.over]

theorem within_of_ne_zero (hd : d ≠ zero) (h : zero.trackAll cs = some zero) :
    d.within cs = some d := by
  have hover := within_over hd h
  rwa [zero_over] at hover

theorem within_braced (h : zero.trackAll cs = some zero) (d : Depths) :
    d.within ('\x7b' :: (cs ++ ['\x7d'])) = some d := by
  have hopen : d.track '\x7b' = some { d with braces := d.braces + 1 } := rfl
  have hne : ({ d with braces := d.braces + 1 } : Depths) ≠ zero := fun h => by
    cases (Depths.mk.inj h).1
  have hbrace : ¬ (('\x7b' : Char) = ',' ∧ d = zero) := fun h => absurd h.1 (by decide)
  have hclose : ¬ (('\x7d' : Char) = ',' ∧ ({ d with braces := d.braces + 1 } : Depths) = zero) :=
    fun h => absurd h.1 (by decide)
  rw [within_cons hbrace, hopen, Option.bind_some, within_append, within_of_ne_zero hne h,
    Option.bind_some, within_cons hclose]
  rfl

/-- A row of closed brackets has no comma outside of them, or there is a first one. -/
theorem within_or_cut : ∀ {ms : List Mark} {d : Depths}, d.trackAll (codeText ms) = some d' →
    d.within (codeText ms) = some d' ∨ ∃ ms₁ k ms₂, ms = ms₁ ++ ⟨k, ',', .code⟩ :: ms₂ ∧
      d.within (codeText ms₁) = some zero ∧ zero.trackAll (codeText ms₂) = some d'
  | [], _, h => .inl h
  | ⟨k, c, kind⟩ :: ms, d, h => by
      rw [codeText_cons] at h ⊢
      by_cases hkind : kind = .code
      · rw [if_pos hkind] at h ⊢
        obtain ⟨d₁, hd₁, h⟩ := Option.bind_eq_some_iff.mp h
        by_cases hcut : c = ',' ∧ d = zero
        · obtain ⟨rfl, rfl⟩ := hcut
          obtain rfl : zero = d₁ := Option.some.inj hd₁
          exact .inr ⟨[], k, ms, by rw [hkind]; rfl, rfl, h⟩
        · rw [within_cons hcut, hd₁]
          refine (within_or_cut h).imp id ?_
          rintro ⟨ms₁, k', ms₂, rfl, hfirst, hrest⟩
          refine ⟨⟨k, c, kind⟩ :: ms₁, k', ms₂, rfl, ?_, hrest⟩
          rw [codeText_cons, if_pos hkind, within_cons hcut, hd₁]
          exact hfirst
      · rw [if_neg hkind] at h ⊢
        refine (within_or_cut h).imp id ?_
        rintro ⟨ms₁, k', ms₂, rfl, hfirst, hrest⟩
        refine ⟨⟨k, c, kind⟩ :: ms₁, k', ms₂, rfl, ?_, hrest⟩
        rwa [codeText_cons, if_neg hkind]

/-! ## All kinds of brackets together -/

def total (d : Depths) : Int := d.braces + d.squares + d.parens

theorem total_eq_zero : d.total = 0 ↔ d = zero := by
  obtain ⟨braces, squares, parens⟩ := d
  simp only [total, Depths.mk.injEq]
  omega

theorem total_track (h : d.track c = some d') :
    d'.total = d.total +
    (if isOpener c = true then 1 else if isCloser c = true then -1 else 0) := by
  have hpred : ∀ {m n : Nat}, pred? m = some n → (m : Int) = n + 1 := fun h => by
    rw [pred?_eq_some.mp h]
    rfl
  unfold track at h
  split at h
  · cases h
    simp only [total, show isOpener '\x7b' = true from rfl, if_true]
    omega
  · cases h
    simp only [total, show isOpener '[' = true from rfl, if_true]
    omega
  · cases h
    simp only [total, show isOpener '(' = true from rfl, if_true]
    omega
  · obtain ⟨m, hm, rfl⟩ := Option.map_eq_some_iff.mp h
    have hm := hpred hm
    simp only [total, show isOpener '\x7d' = false from rfl, show isCloser '\x7d' = true from rfl,
      Bool.false_eq_true, if_true, if_false]
    omega
  · obtain ⟨m, hm, rfl⟩ := Option.map_eq_some_iff.mp h
    have hm := hpred hm
    simp only [total, show isOpener ']' = false from rfl, show isCloser ']' = true from rfl,
      Bool.false_eq_true, if_true, if_false]
    omega
  · obtain ⟨m, hm, rfl⟩ := Option.map_eq_some_iff.mp h
    have hm := hpred hm
    simp only [total, show isOpener ')' = false from rfl, show isCloser ')' = true from rfl,
      Bool.false_eq_true, if_true, if_false]
    omega
  · next h₁ h₂ h₃ h₄ h₅ h₆ =>
      cases h
      have hopener : isOpener c = false := by
        unfold isOpener closer?
        split
        · exact (h₁ rfl).elim
        · exact (h₂ rfl).elim
        · exact (h₃ rfl).elim
        · rfl
      have hcloser : isCloser c = false := by
        simp only [isCloser, Bool.or_eq_false_iff, beq_eq_false_iff_ne]
        exact ⟨⟨h₄, h₅⟩, h₆⟩
      simp [hopener, hcloser]

end Depths

/-- A search for a closer passes over what closes its brackets. -/
theorem closeIn_of_trackAll (b : Bracket) (more : List (Nat × Char)) : ∀ {xs : List (Nat × Char)}
    {d : Depths}, d.trackAll (xs.map (·.2)) = some d' →
      closeIn b.opener b.closer (d.count b) (xs ++ more) =
        closeIn b.opener b.closer (d'.count b) more
  | [], _, h => by
      obtain rfl := Option.some.inj h
      rfl
  | (k, c) :: xs, d, h => by
      obtain ⟨d₁, hd₁, h⟩ := Option.bind_eq_some_iff.mp h
      have ih := closeIn_of_trackAll b more h
      rw [List.cons_append]
      obtain ⟨rfl, hcount⟩ | ⟨rfl, hcount⟩ | ⟨ho, hc, hcount⟩ := Depths.count_track hd₁ b
      · rw [closeIn_opener, ← hcount, ih]
      · rw [hcount, closeIn_closer_succ, ih]
      · rw [closeIn_other ho hc, ← hcount, ih]

/-! ## Runs over a part -/

theorem State.step_alone (h : (s.step c next).takesNext = false) :
    s.step c none = s.step c next := by
  obtain ⟨mode, regions, last⟩ := s
  cases mode with
  | lineComment => rfl
  | blockComment =>
      simp only [step, stepBlockComment] at h ⊢
      split_ifs at h ⊢ <;> simp_all
  | string quote =>
      simp only [step, stepString] at h ⊢
      split_ifs at h ⊢ <;> simp_all
  | code =>
      simp only [step, stepCode] at h ⊢
      split_ifs at h ⊢ <;> simp_all

namespace Reads

/-- A run over a part with something behind it is a run over the part alone. -/
theorem alone (h : Reads rest s n t ms s') : Reads [] s n t ms s' := by
  induction h with
  | nil => exact .nil
  | @one s s₁ _ n c t _ _ hstep _ ih =>
      refine .one ?_ ih
      cases t with
      | nil =>
          rw [List.append_nil, List.head?_nil, @State.step_alone _ _ rest.head?]
          · exact hstep
          · rw [List.nil_append] at hstep
            rw [hstep]
      | cons d t => exact hstep
  | two hstep _ ih => exact .two hstep ih

theorem after_alone (h : Reads rest s n t ms s') : s.after t = s' := by
  have hafter := h.alone.after_eq
  rw [List.append_nil] at hafter
  exact hafter

theorem eq_marksFrom (h : Reads rest s n t ms s') : ms = marksFrom s n t := by
  have hmarks := h.alone.marksFrom_eq
  rw [List.append_nil, marksFrom, List.append_nil] at hmarks
  exact hmarks.symm

/-- A run is cut at a code character. -/
theorem cut (h : Reads rest s n t (ms₁ ++ ⟨k, c, .code⟩ :: ms₂) s') : ∃ p q σ σ', t = p ++ c :: q ∧
    k = n + Text.size p ∧ Reads (c :: q ++ rest) s n p ms₁ σ ∧
      σ.step c (q ++ rest).head? = ⟨.code, σ', false⟩ ∧
      Reads rest σ' (k + c.utf8Size) q ms₂ s' := by
  generalize hms : ms₁ ++ ⟨k, c, .code⟩ :: ms₂ = ms at h
  induction h generalizing ms₁ with
  | nil => cases ms₁ <;> cases hms
  | @one s s₁ s₂ n d t kind ms hstep hreads ih =>
      cases ms₁ with
      | nil =>
          obtain ⟨hm, rfl⟩ := List.cons.inj hms
          obtain ⟨rfl, rfl, rfl⟩ := Mark.mk.inj hm
          exact ⟨[], t, s, s₁, rfl, by simp [Text.size], .nil, hstep, hreads⟩
      | cons m ms₁ =>
          obtain ⟨rfl, hrest⟩ := List.cons.inj hms
          obtain ⟨p, q, σ, σ', rfl, rfl, hp, hc, hq⟩ := ih hrest
          refine ⟨d :: p, q, σ, σ', rfl, by simp [Text.size, Nat.add_assoc], .one ?_ hp, hc, hq⟩
          rw [← hstep]
          simp
  | @two s s₁ s₂ n d d' t kind ms hstep hreads ih =>
      have hkind : kind ≠ .code := fun hcode => by
        have hone := (@State.of_step_code s d (some d') (by rw [hstep]; exact hcode)).2.2.2
        rw [hstep] at hone
        cases hone
      rcases ms₁ with _ | ⟨m, _ | ⟨m', ms₁⟩⟩
      · exact absurd (Mark.mk.inj (List.cons.inj hms).1).2.2.symm hkind
      · exact absurd (Mark.mk.inj (List.cons.inj (List.cons.inj hms).2).1).2.2.symm hkind
      · obtain ⟨rfl, htail⟩ := List.cons.inj hms
        obtain ⟨rfl, hrest⟩ := List.cons.inj htail
        obtain ⟨p, q, σ, σ', rfl, rfl, hp, hc, hq⟩ := ih hrest
        exact ⟨d :: d' :: p, q, σ, σ', rfl,
          by simp [Text.size, Nat.add_assoc], .two hstep hp, hc, hq⟩

end Reads

theorem cut_marksFrom (h : marksFrom s n t = ms₁ ++ ⟨k, c, .code⟩ :: ms₂) : ∃ p q σ σ',
    t = p ++ c :: q ∧ k = n + Text.size p ∧ Reads (c :: q) s n p ms₁ σ ∧
      σ.step c q.head? = ⟨.code, σ', false⟩ ∧ ms₂ = marksFrom σ' (k + c.utf8Size) q := by
  have hreads : Reads [] s n t (marksFrom s n t) (s.after t) := reads_of_last t n fun _ _ _ _ => rfl
  rw [h] at hreads
  obtain ⟨p, q, σ, σ', rfl, hk, hp, hstep, hq⟩ := hreads.cut
  rw [List.append_nil] at hp hstep
  exact ⟨p, q, σ, σ', rfl, hk, hp, hstep, hq.eq_marksFrom⟩

/-- A text behind which the scan is in code is read so in front of what makes no comment of its last
sign. -/
theorem reads_of_detached (t : Text) (n : Nat) (hmode : (s.after t).mode = .code)
    (hrest : Detached rest) :
    Reads rest s n t (marksFrom s n t) (s.after t) := by
  refine reads_of_last t n fun s₁ c _ hstate => ?_
  have hone : s₁.step c none = ⟨(s₁.step c none).kind, (s₁.step c none).state, false⟩ := by
    rw [← State.step_none s₁ c]
  rw [← hstate] at hmode
  rw [State.step_detach hone hmode (hrest c), ← hone]

/-! ## Unbroken text -/

/-- Scanned from code outside of templates the text leads back there, with every bracket closed and
without a comma outside of them. -/
structure Unbroken (t : Text) : Prop where
  ends : (State.start.after t).Agrees .start
  within : Depths.zero.within (codeText (marksFrom .start 0 t)) = some .zero

instance (t : Text) : Decidable (Unbroken t) :=
  decidable_of_iff ((_ = _ ∧ _ = _) ∧ Depths.zero.within (codeText (marksFrom .start 0 t)) =
    some .zero)
    ⟨fun h => ⟨h.1, h.2⟩, fun h => ⟨h.ends, h.within⟩⟩

theorem Unbroken.reads (h : Unbroken t) (hs : s.Agrees .start) (hrest : Detached rest) (n : Nat) :
    ∃ ms s', Reads rest s n t ms s' ∧ s'.Agrees .start ∧
      Depths.zero.within (codeText ms) = some .zero := by
  have hafter := (State.after_agrees t hs).trans h.ends
  refine ⟨_, _, reads_of_detached t n hafter.1 hrest, hafter, ?_⟩
  rw [← marksFrom_agrees t n hs, codeText_marksFrom t .start n 0, h.within]

theorem Reads.unbroken (h : Reads rest s n t ms s') (hs : s.Agrees .start) (hs' : s'.Agrees .start)
    (hms : Depths.zero.within (codeText ms) = some .zero) : Unbroken t where
  ends := (State.after_agrees t hs).symm.trans (by rwa [h.after_alone])
  within := by
    rwa [h.eq_marksFrom, ← marksFrom_agrees t n hs, codeText_marksFrom t .start n 0] at hms

/-! ## Smooth text -/

/-- From code outside of templates the text leads back there, whatever follows it, and counting
passes over it at every depth. -/
def Smooth (t : Text) : Prop :=
  ∀ (rest : Text) (s : State) (n : Nat), s.Agrees .start → ∃ ms s', Reads rest s n t ms s' ∧
    s'.Agrees .start ∧ ∀ d : Depths, d.within (codeText ms) = some d

namespace Smooth

theorem nil : Smooth [] := fun _ s _ hs => ⟨[], s, .nil, hs, fun _ => rfl⟩

theorem append (h : Smooth t) (h' : Smooth u) : Smooth (t ++ u) := by
  intro rest s n hs
  obtain ⟨ms, s₁, hms, hs₁, hd⟩ := h (u ++ rest) s n hs
  obtain ⟨ms', s₂, hms', hs₂, hd'⟩ := h' rest s₁ (n + Text.size t) hs₁
  refine ⟨ms ++ ms', s₂, hms.append hms', hs₂, fun d => ?_⟩
  rw [codeText_append, Depths.within_append, hd, Option.bind_some, hd']

theorem plain (hq : isQuote c = false) (hp : isPlain c = true) (hslash : c ≠ '/')
    (hcomma : c ≠ ',') :
    Smooth [c] := by
  intro rest s n hs
  have hstep := @State.step_plain s c rest.head? hs.1 hs.2 hq
    (by simp [opensComment, hslash])
  refine ⟨_, s, .one hstep .nil, hs, fun d => ?_⟩
  rw [codeText_cons, if_pos rfl, Depths.within_cons fun h => hcomma h.1, Depths.track_plain hp]
  rfl

theorem unbroken (h : Smooth t) : Unbroken t := by
  obtain ⟨ms, s', hms, hs', hd⟩ := h [] .start 0 ⟨rfl, rfl⟩
  exact hms.unbroken ⟨rfl, rfl⟩ hs' (hd .zero)

end Smooth

theorem Smooth.append_unbroken (h : Smooth t) (h' : Unbroken u) : Unbroken (t ++ u) := by
  obtain ⟨ms, s₁, hms, hs₁, hd⟩ := h u .start 0 ⟨rfl, rfl⟩
  obtain ⟨ms', s₂, hms', hs₂, hd'⟩ := h'.reads hs₁ detached_nil (0 + Text.size t)
  rw [← List.append_nil u] at hms
  refine (hms.append hms').unbroken ⟨rfl, rfl⟩ hs₂ ?_
  rw [codeText_append, Depths.within_append, hd, Option.bind_some, hd']

theorem Smooth.unbroken_of_append (h : Smooth t) (h' : Unbroken (t ++ u)) : Unbroken u := by
  obtain ⟨ms, s₁, hms, hs₁, hd⟩ := h u .start 0 ⟨rfl, rfl⟩
  have hends := h'.ends
  have hwithin := h'.within
  rw [hms.after_eq] at hends
  rw [hms.marksFrom_eq, codeText_append, Depths.within_append, hd, Option.bind_some,
    marksFrom_agrees u _ hs₁.symm, codeText_marksFrom u .start _ 0] at hwithin
  exact ⟨(State.after_agrees u hs₁).symm.trans hends, hwithin⟩

end ServiceGate.Scan
