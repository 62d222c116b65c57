/-
# Well-nested source

`WellNested n t gs`: the text `t`, standing at offset `n`, is a row of ordinary characters, strings,
comments, templates and groups, and `gs` are the offsets of the two brackets of every group in it,
those inside the regions of a template included.  `TemplateBody` says the same of what stands
between two back-quotes.

The main statement is `wellNested_scans`: the scanner finds such a text balanced, and finds for each
of its groups the bracket that the grammar pairs with the opening one.  There are no other groups in
it: a bracket that opens in code opens one of them (`WellNested.groupAt_of_mark`).
-/
import ServiceGate.Proofs.Scan.Matching

namespace ServiceGate.Scan

/-! ## The grammar -/

/-- What stands between two quotes `q`: a `q` or a backslash only behind a backslash. -/
inductive QuotedBody (q : Char) : Text → Prop
  | nil : QuotedBody q []
  | char {c : Char} {t : Text} : c ≠ q → c ≠ '\\' → QuotedBody q t → QuotedBody q (c :: t)
  | escape {c : Char} {t : Text} : QuotedBody q t → QuotedBody q ('\\' :: c :: t)

mutual
/-- Source in which every string, comment, template and group is closed. -/
inductive WellNested : Nat → Text → List (Nat × Nat) → Prop
  | nil {n : Nat} : WellNested n [] []
  | ordinary {n : Nat} {c : Char} {t : Text} {gs : List (Nat × Nat)} :
      isQuote c = false → isPlain c = true → opensComment c t.head? = false →
      WellNested (n + c.utf8Size) t gs → WellNested n (c :: t) gs
  | quoted {n : Nat} {q : Char} {b t : Text} {gs : List (Nat × Nat)} :
      q = '\'' ∨ q = '"' → QuotedBody q b →
      WellNested (n + (Text.size b + 2)) t gs → WellNested n (q :: (b ++ q :: t)) gs
  | lineComment {n : Nat} {b t : Text} {gs : List (Nat × Nat)} :
      '\n' ∉ b →
      WellNested (n + (Text.size b + 3)) t gs → WellNested n ('/' :: '/' :: (b ++ '\n' :: t)) gs
  | blockComment {n : Nat} {b t : Text} {gs : List (Nat × Nat)} :
      ¬ ['*', '/'] <:+: b ++ ['*'] →
      WellNested (n + (Text.size b + 4)) t gs →
      WellNested n ('/' :: '*' :: (b ++ '*' :: '/' :: t)) gs
  | template {n : Nat} {b t : Text} {gs gs' : List (Nat × Nat)} :
      TemplateBody (n + 1) b gs → WellNested (n + (Text.size b + 2)) t gs' →
      WellNested n ('\x60' :: (b ++ '\x60' :: t)) (gs ++ gs')
  | group {n : Nat} {w t : Text} {gs gs' : List (Nat × Nat)} (k : Bracket) :
      WellNested (n + 1) w gs → WellNested (n + (Text.size w + 2)) t gs' →
      WellNested n (k.opener :: (w ++ k.closer :: t)) ((n, n + Text.size w + 1) :: (gs ++ gs'))

/-- What stands between two back-quotes: characters, escapes, and regions of source. -/
inductive TemplateBody : Nat → Text → List (Nat × Nat) → Prop
  | nil {n : Nat} : TemplateBody n [] []
  | char {n : Nat} {c : Char} {t : Text} {gs : List (Nat × Nat)} :
      c ≠ '\x60' → c ≠ '\\' → ¬ (c = '$' ∧ t.head? = some '\x7b') →
      TemplateBody (n + c.utf8Size) t gs → TemplateBody n (c :: t) gs
  | escape {n : Nat} {c : Char} {t : Text} {gs : List (Nat × Nat)} :
      TemplateBody (n + (1 + c.utf8Size)) t gs → TemplateBody n ('\\' :: c :: t) gs
  | region {n : Nat} {w t : Text} {gs gs' : List (Nat × Nat)} :
      WellNested (n + 2) w gs → TemplateBody (n + (Text.size w + 3)) t gs' →
      TemplateBody n ('$' :: '\x7b' :: (w ++ '\x7d' :: t)) (gs ++ gs')
end

/-! ## The steps through each kind of token -/

section Steps
variable {R : List Nat} {l : Option Char} {c q : Char} {next : Option Char}

theorem step_ordinary (hq : isQuote c = false) (hp : isPlain c = true)
    (hc : opensComment c next = false) :
    State.step ⟨.code, R, l⟩ c next = ⟨.code, ⟨.code, R, l⟩, false⟩ := by
  obtain ⟨ho, hcl⟩ := isPlain_ne hp .brace
  simp only [Bracket.opener, Bracket.closer] at ho hcl
  simp only [isQuote, opensComment, Bool.or_eq_false_iff, Bool.and_eq_false_iff] at hq hc
  simp only [State.step, State.stepCode]
  split_ifs <;> simp_all

theorem step_quote (h : isQuote q = true) :
    State.step ⟨.code, R, l⟩ q next = ⟨.literal, ⟨.string q, R, some q⟩, false⟩ := by
  simp only [isQuote, Bool.or_eq_true, beq_iff_eq] at h
  obtain (rfl | rfl) | rfl := h <;> rfl

theorem step_string_char (hq : c ≠ q) (hb : c ≠ '\\')
    (hr : ¬ (q = '\x60' ∧ c = '$' ∧ next = some '\x7b')) :
    State.step ⟨.string q, R, l⟩ c next = ⟨.literal, ⟨.string q, R, l⟩, false⟩ := by
  simp only [State.step, State.stepString]
  split_ifs <;> simp_all

theorem step_string_close (hb : q ≠ '\\') :
    State.step ⟨.string q, R, l⟩ q next = ⟨.literal, ⟨.code, R, l⟩, false⟩ := by
  simp [State.step, State.stepString, hb]

/-- The regions inside a group: a brace counts in the innermost one. -/
def Bracket.enter : Bracket → List Nat → List Nat
  | .brace, d :: R => (d + 1) :: R
  | _, R => R

theorem step_opener (k : Bracket) :
    State.step ⟨.code, R, l⟩ k.opener next = ⟨.code, ⟨.code, k.enter R, l⟩, false⟩ := by
  cases k <;> cases R <;> rfl

theorem step_closer (k : Bracket) :
    State.step ⟨.code, k.enter R, l⟩ k.closer next = ⟨.code, ⟨.code, R, l⟩, false⟩ := by
  cases k <;> cases R <;> rfl

theorem step_lineComment (h : c ≠ '\n') :
    State.step ⟨.lineComment, R, l⟩ c next = ⟨.comment, ⟨.lineComment, R, l⟩, false⟩ := by
  simp [State.step, State.stepLineComment, h]

theorem step_blockComment (h : ¬ (c = '*' ∧ next = some '/')) :
    State.step ⟨.blockComment, R, l⟩ c next = ⟨.comment, ⟨.blockComment, R, l⟩, false⟩ := by
  simp only [State.step, State.stepBlockComment]
  split_ifs <;> simp_all

end Steps

/-! ## Strings -/

/-- The marks of a text that is literal throughout, from offset `n` on. -/
def literals (n : Nat) (t : Text) : List Mark := (t.indexed n).map fun p => ⟨p.1, p.2, .literal⟩

theorem literals_append (n : Nat) (t u : Text) :
    literals n (t ++ u) = literals n t ++ literals (n + Text.size t) u := by
  rw [literals, Text.indexed_append, List.map_append]
  rfl

theorem kind_of_mem_literals {n : Nat} {t : Text} {m : Mark} (h : m ∈ literals n t) :
    m.kind = .literal := by
  obtain ⟨p, -, rfl⟩ := List.mem_map.mp h
  rfl

theorem codeOf_literals (n : Nat) (t : Text) : codeOf (literals n t) = [] :=
  List.filterMap_eq_nil_iff.mpr fun m hm => by rw [kind_of_mem_literals hm, if_neg Kind.noConfusion]

section Strings
variable {q : Char} {b : Text}

theorem QuotedBody.reads (h : QuotedBody q b) (hq : q ≠ '\x60') (rest : Text) (R : List Nat)
    (l : Option Char) (n : Nat) : Reads rest ⟨.string q, R, l⟩ n b (literals n b) ⟨.string q, R,
      l⟩ := by
  induction h generalizing n with
  | nil => exact .nil
  | char hc hb _ ih => exact .one (step_string_char hc hb fun hr => hq hr.1) (ih _)
  | escape _ ih => exact .two rfl (ih _)

theorem QuotedBody.reads_string (h : QuotedBody q b) (hq : q = '\'' ∨ q = '"') (rest : Text)
    (R : List Nat) (l : Option Char) (n : Nat) : Reads rest ⟨.code, R, l⟩ n (q :: (b ++ [q]))
      (literals n (q :: (b ++ [q]))) ⟨.code, R, some q⟩ := by
  have hq₁ : isQuote q = true := by rcases hq with rfl | rfl <;> rfl
  have hq₂ : q ≠ '\\' := by rintro rfl; simp at hq
  have hq₃ : q ≠ '\x60' := by rintro rfl; simp at hq
  have hmarks : literals n (q :: (b ++ [q])) =
      ⟨n, q, .literal⟩ ::
      (literals (n + q.utf8Size) b ++ literals (n + q.utf8Size + Text.size b) [q]) :=
    congrArg (List.cons (⟨n, q, .literal⟩ : Mark)) (literals_append _ b [q])
  rw [hmarks]
  exact .one (step_quote hq₁) ((h.reads hq₃ ([q] ++ rest) R (some q) _).append
    (.one (step_string_close hq₂) .nil))

end Strings

/-! ## Reading well-nested source

From code, and whatever regions are open around it, a well-nested text is read back into the same
code; what code it has is neutral.  What follows must not make a comment of its last slash. -/

/-- The text that follows does not take the slash before it along. -/
def Detached (rest : Text) : Prop := ∀ c, opensComment c rest.head? = false

theorem detached_nil : Detached [] := fun c => by simp [opensComment]

theorem detached_closer (k : Bracket) (rest : Text) : Detached (k.closer :: rest) := by
  intro c
  cases k <;> simp [opensComment, Bracket.closer]

theorem Detached.opensComment_append {rest t : Text} {c : Char} (hrest : Detached rest)
    (h : opensComment c t.head? = false) : opensComment c (t ++ rest).head? = false := by
  cases t with
  | nil => exact hrest c
  | cons d t => exact h

/-- A run over `t` whose code is neutral, at whatever offset it starts. -/
def Runs (rest : Text) (s : State) (t : Text) (s' : State) : Prop :=
  ∀ n, ∃ ms, Reads rest s n t ms s' ∧ Neutral (codeOf ms)

namespace Runs

variable {rest t u : Text} {s s' s'' : State} {c d : Char} {k : Kind}

theorem nil : Runs rest s [] s := fun _ => ⟨[], .nil, .nil⟩

theorem append (h : Runs (u ++ rest) s t s') (h' : Runs rest s' u s'') :
    Runs rest s (t ++ u) s'' := by
  intro n
  obtain ⟨ms, hms, hn⟩ := h n
  obtain ⟨ms', hms', hn'⟩ := h' (n + Text.size t)
  exact ⟨ms ++ ms', hms.append hms', by rw [codeOf_append]; exact hn.append hn'⟩

theorem plain (hstep : s.step c (t ++ rest).head? = ⟨.code, s', false⟩) (hc : isPlain c = true)
    (h : Runs rest s' t s'') : Runs rest s (c :: t) s'' := by
  intro n
  obtain ⟨ms, hms, hn⟩ := h (n + c.utf8Size)
  exact ⟨_, .one hstep hms, .append (.plain hc) hn⟩

theorem one (hstep : s.step c (t ++ rest).head? = ⟨k, s', false⟩) (hk : k ≠ .code)
    (h : Runs rest s' t s'') : Runs rest s (c :: t) s'' := by
  intro n
  obtain ⟨ms, hms, hn⟩ := h (n + c.utf8Size)
  refine ⟨_, .one hstep hms, ?_⟩
  cases k with
  | code => exact absurd rfl hk
  | literal | comment => exact hn

theorem two (hstep : s.step c (some d) = ⟨k, s', true⟩) (hk : k ≠ .code)
    (h : Runs rest s' t s'') : Runs rest s (c :: d :: t) s'' := by
  intro n
  obtain ⟨ms, hms, hn⟩ := h (n + c.utf8Size + d.utf8Size)
  refine ⟨_, .two hstep hms, ?_⟩
  cases k with
  | code => exact absurd rfl hk
  | literal | comment => exact hn

/-- A group around a neutral run, and what follows it. -/
theorem group {R : List Nat} {l l' : Option Char} (b : Bracket)
    (h : Runs (b.closer :: (u ++ rest)) ⟨.code, b.enter R, l⟩ t ⟨.code, b.enter R, l'⟩)
    (h' : Runs rest ⟨.code, R, l'⟩ u s'') :
    Runs rest ⟨.code, R, l⟩ (b.opener :: (t ++ b.closer :: u)) s'' := by
  intro n
  obtain ⟨ms, hms, hn⟩ := h (n + b.opener.utf8Size)
  obtain ⟨ms', hms', hn'⟩ := h' (n + b.opener.utf8Size + Text.size t + b.closer.utf8Size)
  refine ⟨_, .one (step_opener b) (.append hms (.one (step_closer b) hms')), ?_⟩
  have hgroup := (Neutral.group b n (n + b.opener.utf8Size + Text.size t) hn).append hn'
  simpa using hgroup

end Runs

section Bodies
variable {rest b : Text} {R : List Nat} {l : Option Char}

theorem QuotedBody.runs {q : Char} (h : QuotedBody q b) (hq : q ≠ '\x60') :
    Runs rest ⟨.string q, R, l⟩ b ⟨.string q, R, l⟩ :=
  fun n => ⟨_, h.reads hq rest R l n, by rw [codeOf_literals]; exact .nil⟩

theorem runs_lineComment (h : '\n' ∉ b) :
    Runs rest ⟨.lineComment, R, l⟩ b ⟨.lineComment, R, l⟩ := by
  induction b with
  | nil => exact .nil
  | cons c b ih =>
      rw [List.mem_cons, not_or] at h
      exact .one (step_lineComment (Ne.symm h.1)) (by decide) (ih h.2)

theorem runs_blockComment (h : ¬ ['*', '/'] <:+: b ++ ['*']) :
    Runs ('*' :: rest) ⟨.blockComment, R, l⟩ b ⟨.blockComment, R, l⟩ := by
  induction b with
  | nil => exact .nil
  | cons c b ih =>
      refine .one (step_blockComment ?_) (by decide) (ih fun hb => h (List.infix_cons hb))
      rintro ⟨rfl, hnext⟩
      cases b with
      | nil => cases hnext
      | cons d b =>
          obtain rfl := Option.some.inj hnext
          exact h (List.prefix_append _ (b ++ ['*'])).isInfix

end Bodies

theorem head?_append_backquote {t rest : Text}
    (h : (t ++ '\x60' :: rest).head? = some '\x7b') : t.head? = some '\x7b' := by
  cases t with
  | nil => cases h
  | cons c t => exact h

mutual
theorem WellNested.runs : ∀ {n : Nat} {t : Text} {gs : List (Nat × Nat)}, WellNested n t gs →
    ∀ (R : List Nat) (l : Option Char) {rest : Text}, Detached rest →
      ∃ l', Runs rest ⟨.code, R, l⟩ t ⟨.code, R, l'⟩
  | _, _, _, .nil, _, l, _, _ => ⟨l, .nil⟩
  | _, _, _, .ordinary hq hp hc ht, R, l, _, hrest => by
      obtain ⟨l', h⟩ := ht.runs R l hrest
      exact ⟨l', .plain (step_ordinary hq hp (hrest.opensComment_append hc)) hp h⟩
  | _, _, _, .quoted (q := q) hq hb ht, R, l, _, hrest => by
      obtain ⟨l', h⟩ := ht.runs R (some q) hrest
      have hq₁ : isQuote q = true := by rcases hq with rfl | rfl <;> rfl
      have hq₂ : q ≠ '\\' := by rintro rfl; simp at hq
      have hq₃ : q ≠ '\x60' := by rintro rfl; simp at hq
      exact ⟨l', .one (step_quote hq₁) (by decide)
        (.append (hb.runs hq₃) (.one (step_string_close hq₂) (by decide) h))⟩
  | _, _, _, .lineComment hb ht, R, l, _, hrest => by
      obtain ⟨l', h⟩ := ht.runs R l hrest
      exact ⟨l', .two rfl (by decide)
        (.append (runs_lineComment hb) (.one (k := .comment) rfl (by decide) h))⟩
  | _, _, _, .blockComment hb ht, R, l, _, hrest => by
      obtain ⟨l', h⟩ := ht.runs R l hrest
      exact ⟨l', .two rfl (by decide)
        (.append (runs_blockComment hb) (.two (k := .comment) rfl (by decide) h))⟩
  | _, _, _, .template hb ht, R, l, rest, hrest => by
      obtain ⟨l₁, h₁⟩ := hb.runs R (some '\x60') (_ ++ rest)
      obtain ⟨l', h⟩ := ht.runs R l₁ hrest
      exact ⟨l', .one (step_quote (by decide)) (by decide)
        (.append h₁ (.one (step_string_close (by decide)) (by decide) h))⟩
  | _, _, _, .group k hw ht, R, l, rest, hrest => by
      obtain ⟨l₁, h₁⟩ := hw.runs (k.enter R) l (detached_closer k (_ ++ rest))
      obtain ⟨l', h⟩ := ht.runs R l₁ hrest
      exact ⟨l', .group k h₁ h⟩
theorem TemplateBody.runs : ∀ {n : Nat} {t : Text} {gs : List (Nat × Nat)}, TemplateBody n t gs →
    ∀ (R : List Nat) (l : Option Char) (rest : Text),
      ∃ l', Runs ('\x60' :: rest) ⟨.string '\x60', R, l⟩ t ⟨.string '\x60', R, l'⟩
  | _, _, _, .nil, _, l, _ => ⟨l, .nil⟩
  | _, _, _, .char h₁ h₂ h₃ ht, R, l, rest => by
      obtain ⟨l', h⟩ := ht.runs R l rest
      refine ⟨l', .one (step_string_char h₁ h₂ ?_) (by decide) h⟩
      rintro ⟨-, hc, hnext⟩
      exact h₃ ⟨hc, head?_append_backquote hnext⟩
  | _, _, _, .escape ht, R, l, rest => by
      obtain ⟨l', h⟩ := ht.runs R l rest
      exact ⟨l', .two rfl (by decide) h⟩
  | _, _, _, .region hw ht, R, l, rest => by
      obtain ⟨l₁, h₁⟩ := hw.runs (0 :: R) l (detached_closer .brace (_ ++ '\x60' :: rest))
      obtain ⟨l', h⟩ := ht.runs R (some '\x60') rest
      exact ⟨l', .two rfl (by decide) (.append h₁ (.one (k := .literal) rfl (by decide) h))⟩
end

/-! ## The groups of well-nested source -/

/-- The text `t` at offset `n` has a group with its brackets at the offsets `g`. -/
def GroupAt (n : Nat) (t : Text) (g : Nat × Nat) : Prop :=
  ∃ (k : Bracket) (p w q : Text) (gs : List (Nat × Nat)),
    t = p ++ k.opener :: (w ++ k.closer :: q) ∧
      g = (n + Text.size p, n + Text.size p + Text.size w + 1) ∧
      WellNested (n + Text.size p + 1) w gs

theorem GroupAt.extend {n m : Nat} {t u : Text} {g : Nat × Nat} (p q : Text)
    (h : GroupAt m t g) (hm : m = n + Text.size p) (hu : u = p ++ (t ++ q)) : GroupAt n u g := by
  obtain ⟨k, p', w, q', gs, rfl, rfl, hw⟩ := h
  subst hm hu
  refine ⟨k, p ++ p', w, q' ++ q, gs, by simp, ?_, ?_⟩
  · simp [Text.size_append, Nat.add_assoc]
  · simpa [Text.size_append, Nat.add_assoc] using hw

/-- A group's own brackets match wherever it stands. -/
theorem matchingClose?_group {n : Nat} {w : Text} {gs : List (Nat × Nat)} (k : Bracket) (p q : Text)
    (hw : WellNested n w gs) :
    matchingClose? (p ++ k.opener :: (w ++ k.closer :: q)) (Text.size p) =
      some (Text.size p + Text.size w + 1) := by
  obtain ⟨l, hl⟩ := hw.runs (k.enter []) none (detached_closer k q)
  obtain ⟨ms, hms, hn⟩ := hl (Text.size p + 1)
  have hstart : State.start = ⟨.code, k.enter [], none⟩ := by cases k <;> rfl
  have hmarks := hms.marksFrom_eq
  rw [marksFrom_one _ (by rw [step_closer]), step_closer] at hmarks
  rw [matchingClose?_opener k rfl, hstart, hmarks, codeOf_append, hn.closeIn, codeOf_cons_code,
    closeIn_closer_zero, Nat.add_right_comm]

mutual
theorem WellNested.groupAt : ∀ {n : Nat} {t : Text} {gs : List (Nat × Nat)}, WellNested n t gs →
    ∀ g ∈ gs, GroupAt n t g
  | _, _, _, .nil, _, hg => absurd hg List.not_mem_nil
  | _, _, _, .ordinary (c := c) _ _ _ ht, g, hg =>
      (ht.groupAt g hg).extend [c] [] (by simp [Text.size]) (by simp)
  | _, _, _, .quoted (q := q) (b := b) hq _ ht, g, hg => by
      have hq : q.utf8Size = 1 := by rcases hq with rfl | rfl <;> rfl
      refine (ht.groupAt g hg).extend (q :: (b ++ [q])) [] ?_ (by simp)
      simp only [Text.size, Text.size_append, hq]
      omega
  | _, _, _, .lineComment (b := b) _ ht, g, hg => by
      refine (ht.groupAt g hg).extend ('/' :: '/' :: (b ++ ['\n'])) [] ?_ (by simp)
      simp [Text.size, Text.size_append, Char.utf8Size]
      omega
  | _, _, _, .blockComment (b := b) _ ht, g, hg => by
      refine (ht.groupAt g hg).extend ('/' :: '*' :: (b ++ ['*', '/'])) [] ?_ (by simp)
      simp [Text.size, Text.size_append, Char.utf8Size]
      omega
  | _, _, _, .template (b := b) (t := t) hb ht, g, hg => by
      rcases List.mem_append.mp hg with hg | hg
      · exact (hb.groupAt g hg).extend ['\x60'] ('\x60' :: t) rfl (by simp)
      · refine (ht.groupAt g hg).extend ('\x60' :: (b ++ ['\x60'])) [] ?_ (by simp)
        simp [Text.size, Text.size_append, Char.utf8Size]
        omega
  | _, _, _, .group (w := w) (t := t) k hw ht, g, hg => by
      rcases List.mem_cons.mp hg with rfl | hg
      · exact ⟨k, [], w, t, _, rfl, by simp [Text.size], by simpa [Text.size] using hw⟩
      rcases List.mem_append.mp hg with hg | hg
      · exact (hw.groupAt g hg).extend [k.opener] (k.closer :: t) (by simp [Text.size]) (by simp)
      · refine (ht.groupAt g hg).extend (k.opener :: (w ++ [k.closer])) [] ?_ (by simp)
        simp only [Text.size, Text.size_append, Bracket.utf8Size_opener, Bracket.utf8Size_closer]
        omega
theorem TemplateBody.groupAt : ∀ {n : Nat} {t : Text} {gs : List (Nat × Nat)}, TemplateBody n t gs →
    ∀ g ∈ gs, GroupAt n t g
  | _, _, _, .nil, _, hg => absurd hg List.not_mem_nil
  | _, _, _, .char (c := c) _ _ _ ht, g, hg =>
      (ht.groupAt g hg).extend [c] [] (by simp [Text.size]) (by simp)
  | _, _, _, .escape (c := c) ht, g, hg =>
      (ht.groupAt g hg).extend ['\\', c] [] rfl (by simp)
  | _, _, _, .region (w := w) (t := t) hw ht, g, hg => by
      rcases List.mem_append.mp hg with hg | hg
      · exact (hw.groupAt g hg).extend ['$', '\x7b'] ('\x7d' :: t) rfl (by simp)
      · refine (ht.groupAt g hg).extend ('$' :: '\x7b' :: (w ++ ['\x7d'])) [] ?_ (by simp)
        simp [Text.size, Text.size_append, Char.utf8Size]
        omega
end

/-! ## Openers in code -/

/-- A run over `t` in which every bracket that opens in code opens one of the groups. -/
def Opens (rest : Text) (s : State) (n : Nat) (t : Text) (s' : State) (gs : List (Nat × Nat)) :
    Prop :=
  ∃ ms, Reads rest s n t ms s' ∧
    ∀ m ∈ ms, m.kind = .code → isOpener m.char = true → ∃ g ∈ gs, g.1 = m.offset

namespace Opens

variable {rest t u : Text} {s s' s'' : State} {c d : Char} {k : Kind} {n : Nat}
  {gs gs' : List (Nat × Nat)}

theorem nil : Opens rest s n [] s gs := ⟨[], .nil, fun _ hm => absurd hm List.not_mem_nil⟩

theorem append (h : Opens (u ++ rest) s n t s' gs)
    (h' : Opens rest s' (n + Text.size t) u s'' gs') :
    Opens rest s n (t ++ u) s'' (gs ++ gs') := by
  obtain ⟨ms, hms, hopen⟩ := h
  obtain ⟨ms', hms', hopen'⟩ := h'
  refine ⟨ms ++ ms', hms.append hms', fun m hm hcode hopener => ?_⟩
  rcases List.mem_append.mp hm with hm | hm
  · obtain ⟨g, hg, hfirst⟩ := hopen m hm hcode hopener
    exact ⟨g, List.mem_append_left _ hg, hfirst⟩
  · obtain ⟨g, hg, hfirst⟩ := hopen' m hm hcode hopener
    exact ⟨g, List.mem_append_right _ hg, hfirst⟩

theorem one (hstep : s.step c (t ++ rest).head? = ⟨k, s', false⟩)
    (hc : k = .code → isOpener c = true → ∃ g ∈ gs, g.1 = n)
    (h : Opens rest s' (n + c.utf8Size) t s'' gs) : Opens rest s n (c :: t) s'' gs := by
  obtain ⟨ms, hms, hopen⟩ := h
  exact ⟨_, .one hstep hms, List.forall_mem_cons.mpr ⟨hc, hopen⟩⟩

theorem two (hstep : s.step c (some d) = ⟨k, s', true⟩) (hk : k ≠ .code)
    (h : Opens rest s' (n + c.utf8Size + d.utf8Size) t s'' gs) :
    Opens rest s n (c :: d :: t) s'' gs := by
  obtain ⟨ms, hms, hopen⟩ := h
  exact ⟨_, .two hstep hms, List.forall_mem_cons.mpr
    ⟨fun hcode => absurd hcode hk, List.forall_mem_cons.mpr ⟨fun hcode => absurd hcode hk, hopen⟩⟩⟩

/-- A group, which is one of the groups, around a run. -/
theorem group {R : List Nat} {l l' : Option Char} (b : Bracket)
    (h : Opens (b.closer :: (u ++ rest)) ⟨.code, b.enter R, l⟩ (n + 1) t ⟨.code, b.enter R, l'⟩ gs)
    (h' : Opens rest ⟨.code, R, l'⟩ (n + (Text.size t + 2)) u s'' gs') :
    Opens rest ⟨.code, R, l⟩ n (b.opener :: (t ++ b.closer :: u)) s''
      ((n, n + Text.size t + 1) :: (gs ++ gs')) := by
  have hcloser : isOpener b.closer = false := by cases b <;> rfl
  have hopener := b.utf8Size_opener
  have hclose := b.utf8Size_closer
  have hbehind :
      Opens rest ⟨.code, b.enter R, l'⟩ (n + 1 + Text.size t) (b.closer :: u) s'' gs' := by
    refine .one (step_closer b) (fun _ hopen => ?_) ?_
    · rw [hcloser] at hopen
      cases hopen
    · rwa [hclose, show n + 1 + Text.size t + 1 = n + (Text.size t + 2) by omega]
  obtain ⟨ms, hms, hopen⟩ := Opens.append h hbehind
  refine ⟨_, .one (step_opener b) (hopener ▸ hms), List.forall_mem_cons.mpr ⟨fun _ _ =>
    ⟨_, List.mem_cons_self, rfl⟩, fun m hm hcode hopens => ?_⟩⟩
  obtain ⟨g, hg, hfirst⟩ := hopen m hm hcode hopens
  exact ⟨g, List.mem_cons_of_mem _ hg, hfirst⟩

end Opens

section Bodies
variable {rest b : Text} {R : List Nat} {l : Option Char} {n : Nat}

theorem QuotedBody.opens {q : Char} (h : QuotedBody q b) (hq : q ≠ '\x60') :
    Opens rest ⟨.string q, R, l⟩ n b ⟨.string q, R, l⟩ [] := by
  refine ⟨_, h.reads hq rest R l n, fun m hm hcode => ?_⟩
  rw [kind_of_mem_literals hm] at hcode
  cases hcode

theorem opens_lineComment (h : '\n' ∉ b) :
    Opens rest ⟨.lineComment, R, l⟩ n b ⟨.lineComment, R, l⟩ [] := by
  induction b generalizing n with
  | nil => exact .nil
  | cons c b ih =>
      rw [List.mem_cons, not_or] at h
      exact .one (step_lineComment (Ne.symm h.1)) (fun hk => absurd hk (by decide)) (ih h.2)

theorem opens_blockComment (h : ¬ ['*', '/'] <:+: b ++ ['*']) :
    Opens ('*' :: rest) ⟨.blockComment, R, l⟩ n b ⟨.blockComment, R, l⟩ [] := by
  induction b generalizing n with
  | nil => exact .nil
  | cons c b ih =>
      refine .one (step_blockComment ?_) (fun hk => absurd hk (by decide))
        (ih fun hb => h (List.infix_cons hb))
      rintro ⟨rfl, hnext⟩
      cases b with
      | nil => cases hnext
      | cons d b =>
          obtain rfl := Option.some.inj hnext
          exact h (List.prefix_append _ (b ++ ['*'])).isInfix

end Bodies

mutual
theorem WellNested.opens : ∀ {n : Nat} {t : Text} {gs : List (Nat × Nat)}, WellNested n t gs →
    ∀ (R : List Nat) (l : Option Char) {rest : Text}, Detached rest →
      ∃ l', Opens rest ⟨.code, R, l⟩ n t ⟨.code, R, l'⟩ gs
  | _, _, _, .nil, _, l, _, _ => ⟨l, .nil⟩
  | _, _, _, .ordinary hq hp hc ht, R, l, _, hrest => by
      obtain ⟨l', h⟩ := ht.opens R l hrest
      refine ⟨l', .one (step_ordinary hq hp (hrest.opensComment_append hc)) (fun _ hopen => ?_) h⟩
      rw [isPlain, hopen] at hp
      cases hp
  | n, _, _, .quoted (q := q) (b := b) hq hb ht, R, l, _, hrest => by
      obtain ⟨l', h⟩ := ht.opens R (some q) hrest
      have hq₁ : isQuote q = true := by rcases hq with rfl | rfl <;> rfl
      have hq₂ : q ≠ '\\' := by rintro rfl; simp at hq
      have hq₃ : q ≠ '\x60' := by rintro rfl; simp at hq
      have hsize : q.utf8Size = 1 := by rcases hq with rfl | rfl <;> rfl
      refine ⟨l', .one (step_quote hq₁) (fun hk => absurd hk (by decide)) (.append (hb.opens hq₃)
        (.one (step_string_close hq₂) (fun hk => absurd hk (by decide)) ?_))⟩
      rwa [hsize, show n + 1 + Text.size b + 1 = n + (Text.size b + 2) by omega]
  | n, _, _, .lineComment (b := b) hb ht, R, l, _, hrest => by
      obtain ⟨l', h⟩ := ht.opens R l hrest
      refine ⟨l', .two rfl (by decide) (.append (opens_lineComment hb)
        (.one (k := .comment) rfl (fun hk => absurd hk (by decide)) ?_))⟩
      have hslash : '/'.utf8Size = 1 := rfl
      have hline : '\n'.utf8Size = 1 := rfl
      rwa [hslash, hline, show n + 1 + 1 + Text.size b + 1 = n + (Text.size b + 3) by omega]
  | n, _, _, .blockComment (b := b) hb ht, R, l, _, hrest => by
      obtain ⟨l', h⟩ := ht.opens R l hrest
      refine ⟨l', .two rfl (by decide) (.append (opens_blockComment hb)
        (.two (k := .comment) rfl (by decide) ?_))⟩
      have hslash : '/'.utf8Size = 1 := rfl
      have hstar : '*'.utf8Size = 1 := rfl
      rwa [hslash, hstar, show n + 1 + 1 + Text.size b + 1 + 1 = n + (Text.size b + 4) by omega]
  | n, _, _, .template (b := b) hb ht, R, l, rest, hrest => by
      obtain ⟨l₁, h₁⟩ := hb.opens R (some '\x60') (_ ++ rest)
      obtain ⟨l', h⟩ := ht.opens R l₁ hrest
      have hsize : '\x60'.utf8Size = 1 := rfl
      refine ⟨l', .one (step_quote (by decide)) (fun hk => absurd hk (by decide)) (.append h₁
        (.one (step_string_close (by decide)) (fun hk => absurd hk (by decide)) ?_))⟩
      rwa [hsize, show n + 1 + Text.size b + 1 = n + (Text.size b + 2) by omega]
  | _, _, _, .group k hw ht, R, l, rest, hrest => by
      obtain ⟨l₁, h₁⟩ := hw.opens (k.enter R) l (detached_closer k (_ ++ rest))
      obtain ⟨l', h⟩ := ht.opens R l₁ hrest
      exact ⟨l', .group k h₁ h⟩
theorem TemplateBody.opens : ∀ {n : Nat} {t : Text} {gs : List (Nat × Nat)}, TemplateBody n t gs →
    ∀ (R : List Nat) (l : Option Char) (rest : Text),
      ∃ l', Opens ('\x60' :: rest) ⟨.string '\x60', R, l⟩ n t ⟨.string '\x60', R, l'⟩ gs
  | _, _, _, .nil, _, l, _ => ⟨l, .nil⟩
  | _, _, _, .char h₁ h₂ h₃ ht, R, l, rest => by
      obtain ⟨l', h⟩ := ht.opens R l rest
      refine ⟨l', .one (step_string_char h₁ h₂ ?_) (fun hk => absurd hk (by decide)) h⟩
      rintro ⟨-, hc, hnext⟩
      exact h₃ ⟨hc, head?_append_backquote hnext⟩
  | n, _, _, .escape (c := c) ht, R, l, rest => by
      obtain ⟨l', h⟩ := ht.opens R l rest
      have hsize : '\\'.utf8Size = 1 := rfl
      refine ⟨l', .two rfl (by decide) ?_⟩
      rwa [hsize, Nat.add_assoc]
  | n, _, _, .region (w := w) hw ht, R, l, rest => by
      obtain ⟨l₁, h₁⟩ := hw.opens (0 :: R) l (detached_closer .brace (_ ++ '\x60' :: rest))
      obtain ⟨l', h⟩ := ht.opens R (some '\x60') rest
      refine ⟨l', .two rfl (by decide) (.append h₁
        (.one (k := .literal) rfl (fun hk => absurd hk (by decide)) ?_))⟩
      have hdollar : '$'.utf8Size = 1 := rfl
      have hopen : '\x7b'.utf8Size = 1 := rfl
      have hclose : '\x7d'.utf8Size = 1 := rfl
      rwa [hdollar, hopen, hclose, show n + 1 + 1 + Text.size w + 1 = n + (Text.size w + 3) by
        omega]
end

/-- Every bracket that opens in the code of well-nested source opens a group of it. -/
theorem WellNested.groupAt_of_mark {n : Nat} {t : Text} {gs : List (Nat × Nat)} {m : Mark}
    (h : WellNested n t gs) (hm : m ∈ marksFrom .start n t) (hcode : m.kind = .code)
    (hopener : isOpener m.char = true) : ∃ close, GroupAt n t (m.offset, close) := by
  obtain ⟨l, ms, hms, hopen⟩ := h.opens [] none detached_nil
  have hmarks : marksFrom .start n t = ms := by
    have hmarks := hms.marksFrom_eq
    simp only [List.append_nil, marksFrom] at hmarks
    exact hmarks
  obtain ⟨⟨first, close⟩, hg, rfl⟩ := hopen m (hmarks ▸ hm) hcode hopener
  exact ⟨close, h.groupAt _ hg⟩

/-! ## The scanner on well-nested source -/

/-- Well-nested source is balanced, and each of its groups is closed where the grammar closes it. -/
theorem wellNested_scans {t : Text} {gs : List (Nat × Nat)} (h : WellNested 0 t gs) :
    balanced t = true ∧ ∀ g ∈ gs, matchingClose? t g.1 = some g.2 := by
  constructor
  · obtain ⟨l, hl⟩ := h.runs [] none detached_nil
    obtain ⟨ms, hms, hn⟩ := hl 0
    have hmarks : marks t 0 = ms := by
      have hmarks := hms.marksFrom_eq
      simp only [List.append_nil, marksFrom] at hmarks
      rwa [marks_zero]
    have hfinal : finalState t = ⟨.code, [], l⟩ := by
      have hfinal := hms.after_eq
      rwa [List.append_nil] at hfinal
    rw [balanced, codeChars_eq, hmarks, hn.trackAll, hfinal]
    rfl
  · intro g hg
    obtain ⟨k, p, w, q, gs', rfl, rfl, hw⟩ := h.groupAt g hg
    simpa using matchingClose?_group k p q hw

/-- A call with an object inside the region of a template; the string in it shows a brace. -/
theorem wellNested_scans_template :
    WellNested 0 "\x60a$\x7bf(\x7bx:'\x7d'\x7d)\x7d\x60".toList [(5, 13), (6, 12)] ∧
      balanced "\x60a$\x7bf(\x7bx:'\x7d'\x7d)\x7d\x60".toList = true ∧
      matchingClose? "\x60a$\x7bf(\x7bx:'\x7d'\x7d)\x7d\x60".toList 5 = some 13 := by
  have hobject : WellNested 7 ['x', ':', '\'', '\x7d', '\''] [] :=
    .ordinary rfl rfl rfl (.ordinary rfl rfl rfl
      (.quoted (b := ['\x7d']) (.inl rfl) (.char (by decide) (by decide) .nil) .nil))
  have hcall : WellNested 4 "f(\x7bx:'\x7d'\x7d)".toList [(5, 13), (6, 12)] :=
    .ordinary rfl rfl rfl (.group .paren (w := "\x7bx:'\x7d'\x7d".toList) (t := [])
      (.group .brace hobject .nil) .nil)
  have hbody : TemplateBody 1 "a$\x7bf(\x7bx:'\x7d'\x7d)\x7d".toList [(5, 13), (6, 12)] :=
    .char (by decide) (by decide) (by decide)
      (.region (w := "f(\x7bx:'\x7d'\x7d)".toList) (t := []) hcall .nil)
  have h : WellNested 0 "\x60a$\x7bf(\x7bx:'\x7d'\x7d)\x7d\x60".toList [(5, 13), (6, 12)] :=
    .template (b := "a$\x7bf(\x7bx:'\x7d'\x7d)\x7d".toList) (t := []) hbody .nil
  exact ⟨h, (wellNested_scans h).1, (wellNested_scans h).2 (5, 13) (by decide)⟩

end ServiceGate.Scan
