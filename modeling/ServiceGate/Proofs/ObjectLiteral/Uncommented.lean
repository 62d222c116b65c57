/-
# Object literals without the comments

A comment in front of a key is passed over, and so is one behind the beginning of a value; one
between them is taken for what it is not.  Where no comment stands right behind a key or right
behind its colon (`Plain`), an entry is read the same with comments and without them, but for the
end of its value (`read?_uncomment`), and so is a literal that is opened in code outside of
templates (`readAt?_uncomment`).

A piece is compared in one of two ways.  Either the stretch from its key on is the same in both
texts (`SameStretch`), and then the entry is the same, or there is a comment further back in it
(`CutStretch`).  In the second case the part in front of the comment is read from code to code, so
the key is read in full before the comment is met (`readKey?_before`), and so is the start of the
value (`valueSpan?_before`).  `Plain` rules out the two places where that fails.

`Like` leaves the end of a value open: behind the value the text without comments has white space
where the other has a comment, and only the first is trimmed away.
-/
import ServiceGate.Proofs.Checked.ObjectLiteral
import ServiceGate.Proofs.ObjectLiteral.Quoted
import ServiceGate.Proofs.ObjectLiteral.Stretches
import ServiceGate.Proofs.Scan.Cuts

namespace ServiceGate

open Scan

variable {s s' : State} {rest g t : Text} {n k start stop : Nat} {quote : Char} {ms : List Mark}
  {e e' : ObjectEntry} {o o' : ObjectLiteral}

/-- Two entries that agree up to the end of the value. -/
structure ObjectEntry.Like (e e' : ObjectEntry) : Prop where
  key : e'.key = e.key
  keyAt : e'.keyAt = e.keyAt
  valueStart : e'.valueStart = e.valueStart

/-- Two literals at one place whose entries agree up to the end of the value. -/
structure ObjectLiteral.Like (o o' : ObjectLiteral) : Prop where
  openAt : o'.openAt = o.openAt
  closeAt : o'.closeAt = o.closeAt
  entries : List.Forall₂ ObjectEntry.Like o.entries o'.entries

/-! ## Keys -/

theorem Quoted.exists_decodeRest? (h : Reads rest s n g ms s') (hs : s.mode = .string quote)
    (hs' : s'.mode = .code) (hquote : quote ≠ '\x60') (k : Nat) :
    ∃ key u v, g = u ++ v ∧ ∀ x, decodeRest? quote k (g ++ x) = some (key, k + Text.size u) := by
  induction h generalizing k with
  | nil =>
      rw [hs] at hs'
      cases hs'
  | @one s s₁ s₂ n c g kind ms hstep hreads ih =>
      obtain ⟨mode, regions, last⟩ := s
      obtain rfl : mode = .string quote := hs
      simp only [State.step, State.stepString] at hstep
      split_ifs at hstep with h₁ h₂ h₃
      · -- a backslash that takes nothing along is the last character of the text
        obtain ⟨-, rfl, hnone⟩ := Step.mk.inj hstep
        cases g with
        | nil =>
            cases hreads
            cases hs'
        | cons d g => cases hnone
      · refine ⟨[], [c], g, rfl, fun x => ?_⟩
        rw [List.cons_append, decodeRest?_of_ne h₁, if_pos h₂]
        rfl
      · obtain ⟨-, -, hfalse⟩ := Step.mk.inj hstep
        cases hfalse
      · obtain ⟨-, rfl, -⟩ := Step.mk.inj hstep
        obtain ⟨key, u, v, rfl, hkey⟩ := ih rfl hs' (k + c.utf8Size)
        refine ⟨c :: key, c :: u, v, rfl, fun x => ?_⟩
        rw [List.cons_append, decodeRest?_of_ne h₁, if_neg h₂, hkey x, Text.size, Nat.add_assoc]
        rfl
  | @two s s₁ s₂ n c d g kind ms hstep hreads ih =>
      obtain ⟨mode, regions, last⟩ := s
      obtain rfl : mode = .string quote := hs
      simp only [State.step, State.stepString] at hstep
      split_ifs at hstep with h₁ h₂ h₃
      · obtain ⟨-, rfl, -⟩ := Step.mk.inj hstep
        obtain ⟨key, u, v, rfl, hkey⟩ := ih rfl hs' (k + c.utf8Size + d.utf8Size)
        refine ⟨d :: key, c :: d :: u, v, rfl, fun x => ?_⟩
        rw [List.cons_append, List.cons_append, decodeRest?, if_pos h₁]
        rw [hkey x, Text.size, Text.size, ← Nat.add_assoc, ← Nat.add_assoc]
        rfl
      · cases (Step.mk.inj hstep).2.2
      · simp [hquote] at h₃
      · cases (Step.mk.inj hstep).2.2

theorem takeWhile_append_cons {f : Char → Bool} {c : Char} (hc : f c = false) (g x : Text) :
    (g ++ c :: x).takeWhile f = g.takeWhile f := by
  induction g with
  | nil => simp [hc]
  | cons d g ih =>
      rw [List.cons_append, List.takeWhile_cons, List.takeWhile_cons, ih]

namespace ObjectEntry

theorem readKey?_before (h : Reads rest s n g ms s') (hs : s.mode = .code) (hs' : s'.mode = .code)
    (hne : g ≠ []) : ∃ r : Option (Text × Nat),
    (∀ d x, CharClass.isName d = false → readKey? (g ++ d :: x) = r) ∧
      ∀ y ∈ r, ∃ u v, g = u ++ v ∧ y.2 = Text.size u := by
  cases g with
  | nil => exact absurd rfl hne
  | cons c g =>
      by_cases hc : (c == '\'' || c == '"') = true
      · have hstep : ∀ next, s.step c next = ⟨.literal, s.enterString c, false⟩ := fun next => by
          obtain ⟨mode, regions, last⟩ := s
          obtain rfl : mode = .code := hs
          rw [Bool.or_eq_true, beq_iff_eq, beq_iff_eq] at hc
          rcases hc with rfl | rfl <;> simp [State.step, State.stepCode]
        have hquote : c ≠ '\x60' := by
          rintro rfl
          exact absurd hc (by decide)
        cases h with
        | one hr hreads =>
            rw [hstep] at hr
            obtain ⟨-, rfl, -⟩ := Step.mk.inj hr
            obtain ⟨key, u, v, rfl, hkey⟩ :=
              Quoted.exists_decodeRest? hreads rfl hs' hquote c.utf8Size
            refine ⟨some (key, c.utf8Size + Text.size u), fun d x _ => ?_, fun y hy => ?_⟩
            · rw [List.cons_append, readKey?, if_pos hc]
              exact hkey _
            · exact ⟨c :: u, v, rfl, by rw [← Option.some.inj hy]; rfl⟩
        | two hr _ =>
            rw [hstep] at hr
            cases hr
      · by_cases hname : CharClass.isName c = true
        · refine ⟨some ((c :: g).takeWhile CharClass.isName,
            Text.size ((c :: g).takeWhile CharClass.isName)), fun d x hd => ?_, fun y hy => ?_⟩
          · have htake := takeWhile_append_cons hd (c :: g) x
            rw [List.cons_append] at htake ⊢
            rw [readKey?, if_neg hc, if_pos hname, htake]
          · exact ⟨_, (c :: g).dropWhile CharClass.isName, List.takeWhile_append_dropWhile.symm,
              by rw [← Option.some.inj hy]⟩
        · refine ⟨none, fun d x _ => ?_, fun y hy => by cases hy⟩
          rw [List.cons_append, readKey?, if_neg hc, if_neg hname]

/-! ## Values -/

/-- What follows the colon that a text opens with, or else the text. -/
def behindColon : Text → Text
  | ':' :: rest => Text.trimStart rest
  | w => w

/-- No comment stands right behind the key of a piece, and none right behind its colon. -/
def Plain (t : Text) (start stop : Nat) : Prop :=
  ∀ keyAt ∈ firstSignificant? t start stop, ∀ key ∈ readKey? (t.between keyAt stop),
    ¬ CommentAt t (stop - Text.size (t.between (keyAt + key.2) stop).trimStart) ∧
      ¬ CommentAt t (stop - Text.size (behindColon (t.between (keyAt + key.2) stop).trimStart))

instance (t : Text) (start stop : Nat) : Decidable (Plain t start stop) :=
  inferInstanceAs (Decidable (∀ keyAt ∈ firstSignificant? t start stop, ∀ key ∈ readKey? _, _ ∧ _))

theorem trimStart_before {x y : Text} (hx : x.trimStart = x) (h : (g ++ x).trimStart ≠ x) :
    ∃ d v, (g ++ x).trimStart = d :: (v ++ x) ∧ (g ++ y).trimStart = d :: (v ++ y) := by
  rw [Text.trimStart, List.dropWhile_append] at h ⊢
  rw [Text.trimStart, List.dropWhile_append]
  cases hg : g.dropWhile CharClass.isSpace with
  | nil =>
      rw [hg] at h
      exact absurd hx h
  | cons d v => exact ⟨d, v, rfl, rfl⟩

theorem valueSpan?_of_ne {d : Char} {v x : Text} (keyAt behindKey stop : Nat)
    (h : x.trimStart = d :: v) (hcolon : d ≠ ':') (hparen : d ≠ '(') :
    valueSpan? keyAt behindKey stop x = none := by
  rw [valueSpan?, h]
  split
  · next heq => cases heq
  · next heq => exact absurd (List.cons.inj heq).1 hcolon
  · next heq => exact absurd (List.cons.inj heq).1 hparen
  · rfl

/-- A value that does not start with a comment starts at the same place without it. -/
theorem valueSpan?_before {x y : Text} (keyAt behindKey stop : Nat) (hx : x.trimStart = x)
    (hsize : Text.size y = Text.size x) (hkey : (g ++ x).trimStart ≠ x)
    (hcolon : behindColon (g ++ x).trimStart ≠ x) :
    Option.Rel (fun a b : Nat × Nat => b.1 = a.1) (valueSpan? keyAt behindKey stop (g ++ x))
      (valueSpan? keyAt behindKey stop (g ++ y)) := by
  obtain ⟨d, v, hd, hd'⟩ := trimStart_before (y := y) hx hkey
  rw [hd] at hcolon
  rw [valueSpan?, valueSpan?, hd, hd']
  by_cases hc : d = ':'
  · subst hc
    obtain ⟨d', v', hv, hv'⟩ := trimStart_before (y := y) hx hcolon
    refine .some ?_
    simp only [hv, hv', Text.size, Text.size_append, hsize]
  · by_cases hp : d = '('
    · subst hp
      exact .some rfl
    · rw [← hd, ← hd', ← valueSpan?, ← valueSpan?, valueSpan?_of_ne keyAt behindKey stop hd hc hp,
        valueSpan?_of_ne keyAt behindKey stop hd' hc hp]
      exact .none

/-! ## Entries -/

/-- An entry is read from the stretch between its key and the end of the piece. -/
theorem read?_of_cut {p w r : Text} (ht : t = p ++ w ++ r)
    (hstop : stop = Text.size p + Text.size w)
    (h : firstSignificant? t start stop = some (Text.size p)) :
    read? t start stop = (readKey? w).bind fun key =>
      (valueSpan? (Text.size p) (Text.size p + key.2) stop (w.between key.2 (Text.size w))).map
        fun x =>
        ⟨key.1, Text.size p, x.1, x.2⟩ := by
  subst ht hstop
  have hbetween : ∀ k, (p ++ w ++ r).between (Text.size p + k) (Text.size p + Text.size w) =
      w.between k (Text.size w) := fun k => by
    rw [List.append_assoc, Text.between_append_right, Text.between_append_left (Nat.le_refl _)]
  rw [read?, h, Option.bind_eq_bind, Option.bind_some, Text.between_append]
  cases readKey? w with
  | none => rfl
  | some key =>
      simp only [Option.bind_eq_bind, Option.bind_some, hbetween]
      cases valueSpan? (Text.size p) (Text.size p + key.2) (Text.size p + Text.size w)
        (w.between key.2 (Text.size w)) <;> rfl

theorem between_to_end (u v : Text) : (u ++ v).between (Text.size u) (Text.size (u ++ v)) = v := by
  have h := Text.between_append u v []
  rwa [List.append_nil, ← Text.size_append] at h

/-- A stretch of the text that is the same without the comments. -/
def SameStretch (t u : Text) (k stop : Nat) : Prop :=
  ∃ p w r p' r', t = p ++ w ++ r ∧ u = p' ++ w ++ r' ∧ Text.size p = k ∧ Text.size p' = k ∧
    stop = k + Text.size w

/-- A stretch of the text with a comment behind a first part that the scan reads from code to code.
-/
def CutStretch (t u : Text) (k stop : Nat) : Prop :=
  ∃ p g x r p' y r' rest s n ms s', t = p ++ (g ++ '/' :: x) ++ r ∧ u = p' ++ (g ++ ' ' :: y) ++
  r' ∧
    Text.size p = k ∧ Text.size p' = k ∧ stop = k + Text.size (g ++ '/' :: x) ∧
    Text.size y = Text.size x ∧ g ≠ [] ∧ Reads rest s n g ms s' ∧ s.mode = .code ∧ s'.mode = .code ∧
    CommentAt t (k + Text.size g)

/-- Where a stretch is the same, so is the entry. -/
theorem SameStretch.read?_eq {u : Text} (h : SameStretch t u k stop)
    (hk : firstSignificant? t start stop = some k) (hk' : firstSignificant? u start stop = some k) :
    read? u start stop = read? t start stop := by
  obtain ⟨p, w, r, p', r', ht, hu, rfl, hp', hstop⟩ := h
  rw [read?_of_cut ht hstop hk, read?_of_cut hu (by rw [hp']; exact hstop) (by rw [hp']; exact hk'),
    hp']

theorem CutStretch.read?_like {u : Text} (h : CutStretch t u k stop)
    (hk : firstSignificant? t start stop = some k) (hk' : firstSignificant? u start stop = some k)
    (hplain : Plain t start stop) : Option.Rel Like (read? t start stop) (read? u start stop) := by
  obtain ⟨p, g, x, r, p', y, r', rest, s, n, ms, s', ht, hu, rfl, hp', hstop, hsize, hne, hreads,
      hs, hs',
    hcomment⟩ := h
  obtain ⟨key, hkey, hcut⟩ := readKey?_before hreads hs hs' hne
  have hspace : Text.size (' ' :: y) = Text.size ('/' :: x) := by
    rw [Text.size, Text.size, hsize]; rfl
  have hstop' : stop = Text.size p' + Text.size (g ++ ' ' :: y) := by
    rw [hstop, hp', Text.size_append, Text.size_append, hspace]
  rw [read?_of_cut ht hstop hk, read?_of_cut hu hstop' (by rw [hp']; exact hk'),
    hkey '/' x (by decide), hkey ' ' y (by decide)]
  cases key with
  | none => exact .none
  | some key =>
      obtain ⟨v, v', rfl, hv⟩ := hcut key rfl
      have hrest : ∀ z : Text, (v ++ v' ++ z).between key.2 (Text.size (v ++ v' ++ z)) = v' ++ z :=
        fun z => by rw [hv, List.append_assoc, between_to_end]
      -- the comment would stand right behind the key or right behind its colon
      have hwhole : ∀ i, t.between (Text.size p + i) stop =
          (v ++ v' ++ '/' :: x).between i (Text.size (v ++ v' ++ '/' :: x)) := fun i => by
        rw [ht, hstop, List.append_assoc p, Text.between_append_right,
          Text.between_append_left (Nat.le_refl _)]
      have hpiece : t.between (Text.size p) stop = v ++ v' ++ '/' :: x := by
        have h₀ := hwhole 0
        rw [Nat.add_zero] at h₀
        exact h₀.trans (between_to_end [] _)
      have hfree := hplain _ hk key (by rw [hpiece, hkey '/' x (by decide)]; rfl)
      rw [hwhole, hrest] at hfree
      have hat : stop - Text.size ('/' :: x) = Text.size p + Text.size (v ++ v') := by
        rw [hstop, Text.size_append (v ++ v')]
        omega
      have hslash : Text.trimStart ('/' :: x) = '/' :: x := by
        rw [Text.trimStart, List.dropWhile_cons_of_neg (by decide)]
      rw [Option.bind_some, Option.bind_some, hrest, hrest, hp']
      have hspan := valueSpan?_before (Text.size p) (Text.size p + key.2) stop hslash hspace
        (g := v') (fun heq => hfree.1 (by rw [heq, hat]; exact hcomment))
        (fun heq => hfree.2 (by rw [heq, hat]; exact hcomment))
      generalize valueSpan? (Text.size p) (Text.size p + key.2) stop (v' ++ '/' :: x) = a at hspan ⊢
      generalize valueSpan? (Text.size p) (Text.size p + key.2) stop (v' ++ ' ' :: y) = b at hspan ⊢
      cases hspan with
      | none => exact .none
      | some hspan => exact .some ⟨rfl, rfl, hspan⟩

theorem Like.refl (e : ObjectEntry) : Like e e := ⟨rfl, rfl, rfl⟩

theorem behind_of_isBoundary {m : Mark} (hm : m ∈ marks t 0) (hstop : t.IsBoundary stop)
    (h : m.offset < stop) : m.offset + m.char.utf8Size ≤ stop := by
  obtain ⟨p, q, rfl, hoffset, -⟩ := exists_of_mem_marks hm
  obtain ⟨u, v, hcut, rfl⟩ := Text.isBoundary_iff.mp hstop
  obtain ⟨w, rfl, hw⟩ := Text.exists_middle hcut (by omega)
  cases w with
  | nil => rw [List.append_nil] at h; omega
  | cons d w =>
      obtain ⟨rfl, -⟩ := List.cons.inj hw
      rw [hoffset, Text.size_append, Text.size]
      omega

/-- Without the comments the first character that counts stands where it stood, and the scan of the
text comes to it in code. -/
theorem firstSignificant?_uncomment (hstart : CodePlace t start) (hstop : t.IsBoundary stop) :
    firstSignificant? (uncomment t) start stop = firstSignificant? t start stop ∧
      ∀ k ∈ firstSignificant? t start stop, ∃ p q ms s, t = p ++ q ∧ k = Text.size p ∧
        Reads q .start 0 p ms s ∧ s.mode = .code ∧ ∀ m ∈ (marksFrom s k q).head?,
        m.kind ≠ .comment := by
  obtain ⟨p, q, ms, s, rfl, rfl, hreads, hs⟩ := hstart
  obtain ⟨hleft, hsize⟩ := uncomment_cut hreads
  have hmode : s.mode = State.start.mode := hs
  have hout : s.inString = false := by rw [State.inString, hs]
  have hsame : s.uncommented = s := by rw [State.uncommented, hs]
  obtain ⟨hfresh, -⟩ := @firstSignificant_cut stop q _ _ (Text.size p) hmode.symm rfl
  obtain ⟨-, hcut⟩ := @firstSignificant_cut stop q _ _ (Text.size p) hmode hout
  have hwhole : firstSignificant? (p ++ q) (Text.size p) stop =
      firstSignificant stop (marksFrom s (Text.size p) q) := by
    rw [← hfresh, firstSignificant?, marks, Text.after_append]
    rfl
  have hspread : ∀ m ∈ marksFrom s (Text.size p) q, m.offset < stop →
      m.offset + m.char.utf8Size ≤ stop := fun m hm h => by
    refine behind_of_isBoundary ?_ hstop h
    rw [marks_cut hreads]
    exact List.mem_append_right _ hm
  have hleftWhole : firstSignificant? (uncomment (p ++ q)) (Text.size p) stop =
      firstSignificant stop (marksFrom s (Text.size p) q) := by
    obtain ⟨hfresh', -⟩ := @firstSignificant_cut stop
      ((marksFrom s (Text.size p) q).flatMap Mark.uncomment) _ _ (Text.size p) hmode.symm rfl
    have hscan := marksFrom_uncomment q s (Text.size p)
    rw [hsame] at hscan
    rw [hscan, firstSignificant_spread hspread] at hfresh'
    rw [← hfresh', firstSignificant?, marks, hleft, ← hsize, Text.after_append]
    rfl
  refine ⟨hleftWhole.trans hwhole.symm, fun k hk => ?_⟩
  rw [hwhole] at hk
  obtain ⟨g, x, ms', σ, rfl, rfl, hreads', hσ, hhead⟩ := hcut k hk
  refine ⟨p ++ g, x, ms ++ ms', σ, (List.append_assoc _ _ _).symm, (Text.size_append _ _).symm,
    hreads.append ?_, hσ, hhead⟩
  rwa [Nat.zero_add]

/-- From a place in code on, up to another place, the text is the same without the comments, or
there is a first comment. -/
theorem stretch_uncomment {p q : Text} (hreads : Reads q .start 0 p ms s) (hs : s.mode = .code)
    (hhead : ∀ m ∈ (marksFrom s (Text.size p) q).head?, m.kind ≠ .comment)
    (hstop : (p ++ q).IsBoundary stop) (hle : Text.size p ≤ stop) :
    SameStretch (p ++ q) (uncomment (p ++ q)) (Text.size p) stop ∨
      CutStretch (p ++ q) (uncomment (p ++ q)) (Text.size p) stop := by
  obtain ⟨hleft, hsize⟩ := uncomment_cut hreads
  have hsame : s.uncommented = s := by rw [State.uncommented, hs]
  obtain ⟨u, r, hcut, rfl⟩ := Text.isBoundary_iff.mp hstop
  obtain ⟨w, rfl, rfl⟩ := Text.exists_middle hcut hle
  have hend : Text.size (p ++ w) = Text.size p + Text.size w := Text.size_append _ _
  rcases exists_comment_cut (w ++ r) (Text.size p) hsame with
    hnone | ⟨g, z, ms₁, σ, hz, hreads', hσ, hms₁, ms₂, hcomment⟩
  · refine .inl ⟨p, w, r, _, r, (List.append_assoc _ _ _).symm, ?_, rfl, hsize, hend⟩
    rw [hleft, flatMap_uncomment_of_ne hnone, map_char_marksFrom, List.append_assoc]
  · have hrest : marksFrom s (Text.size p) (w ++ r) =
        ms₁ ++ ⟨Text.size p + Text.size g, '/', .comment⟩ :: ms₂ := by
      rw [hz, hreads'.marksFrom_eq, hcomment]
    have hblank : (marksFrom s (Text.size p) (w ++ r)).flatMap Mark.uncomment =
        g ++ ' ' :: ms₂.flatMap Mark.uncomment := by
      rw [hrest, List.flatMap_append, flatMap_uncomment_of_ne hms₁, hreads'.map_char,
        List.flatMap_cons]
      rfl
    rw [hblank] at hleft
    by_cases hshort : Text.size w ≤ Text.size g
    · obtain ⟨g', rfl, -⟩ := Text.exists_middle hz hshort
      refine .inl ⟨p, w, r, _, g' ++ ' ' :: ms₂.flatMap Mark.uncomment,
        (List.append_assoc _ _ _).symm, ?_, rfl, hsize, hend⟩
      rw [hleft, List.append_assoc, List.append_assoc]
    · obtain ⟨w', rfl, hw'⟩ := Text.exists_middle hz.symm (by omega)
      have hne : g ≠ [] := by
        rintro rfl
        obtain rfl : ms₁ = [] := List.map_eq_nil_iff.mp hreads'.map_char
        rw [hrest] at hhead
        exact hhead _ rfl rfl
      obtain ⟨x, rfl, rfl⟩ : ∃ x, w' = '/' :: x ∧ z = x ++ r := by
        cases w' with
        | nil => rw [List.append_nil] at hshort; omega
        | cons d x =>
            obtain ⟨rfl, hzx⟩ := List.cons.inj hw'
            exact ⟨x, rfl, hzx⟩
      have hchars : ms₂.map (·.char) = x ++ r := by
        have hall := map_char_marksFrom σ (Text.size p + Text.size g) ('/' :: (x ++ r))
        rw [hcomment] at hall
        exact (List.cons.inj hall).2
      obtain ⟨ma, mb, rfl, ha, -⟩ := List.map_eq_append_iff.mp hchars
      refine .inr ⟨p, g, x, r, _, ma.flatMap Mark.uncomment, mb.flatMap Mark.uncomment, _, s, _,
        ms₁, σ, (List.append_assoc _ _ _).symm, ?_, rfl, hsize, hend, ?_, hne, hreads', hs, hσ, ?_⟩
      · rw [hleft, List.flatMap_append]
        simp only [List.append_assoc, List.cons_append]
      · rw [size_flatMap_uncomment, ha]
      · refine ⟨⟨Text.size p + Text.size g, '/', .comment⟩, ?_, rfl, rfl⟩
        rw [marks_cut hreads, hrest]
        exact List.mem_append_right _ (List.mem_append_right _ List.mem_cons_self)

/-- Without the comments an entry is the same, but for the end of its value. -/
theorem read?_uncomment (hstart : CodePlace t start) (hstop : t.IsBoundary stop)
    (hplain : Plain t start stop) :
    Option.Rel Like (read? t start stop) (read? (uncomment t) start stop) := by
  obtain ⟨hfirst, hcut⟩ := firstSignificant?_uncomment hstart hstop
  cases hk : firstSignificant? t start stop with
  | none =>
      rw [hk] at hfirst
      rw [read?, read?, hfirst, hk]
      exact .none
  | some k =>
      obtain ⟨p, q, ms, s, rfl, rfl, hreads, hs, hhead⟩ := hcut k hk
      rw [hk] at hfirst
      have hle := Nat.le_of_lt (of_firstSignificant? hk).2.2
      rcases stretch_uncomment hreads hs hhead hstop hle with hsame | hcut
      · rw [hsame.read?_eq hk hfirst]
        cases read? (p ++ q) start stop with
        | none => exact .none
        | some e => exact .some (.refl e)
      · exact hcut.read?_like hk hfirst hplain

end ObjectEntry

/-! ## Literals -/

namespace ObjectLiteral

variable {close : Nat}

/-- What is left of a comment is no bracket. -/
theorem closeIn_spread (b : Bracket) : ∀ (ms : List Mark) (depth : Nat),
    closeIn b.opener b.closer depth (codeOf (ms.flatMap Mark.spread)) =
      closeIn b.opener b.closer depth (codeOf ms)
  | [], _ => rfl
  | m :: ms, depth => by
      rw [List.flatMap_cons, codeOf_append]
      by_cases hk : m.kind = .comment
      · have hplain : ∀ x ∈ codeOf m.spread, isPlain x.2 = true := fun x hx => by
          obtain ⟨-, -, -, hc⟩ := of_mem_spread hk (mem_codeOf.mp hx)
          rcases hc with hc | hc <;> simp only at hc <;> rw [hc] <;> rfl
        have hcode : codeOf (m :: ms) = codeOf ms := by
          obtain ⟨n, c, k⟩ := m
          simp only at hk
          rw [hk, codeOf_cons_comment]
        rw [closeIn_plain b depth hplain, hcode, closeIn_spread b ms]
      · obtain ⟨n, c, k⟩ := m
        rw [Mark.spread_of_ne hk]
        cases k with
        | code => exact closeIn_congr_cons (n, c) (closeIn_spread b ms) depth
        | literal => exact closeIn_spread b ms depth
        | comment => exact absurd rfl hk

/-- Blanks in front of the closing brace cut nothing. -/
theorem pieces_skip {rest : List Mark} (depth : Int) (start : Nat) : ∀ {xs : List Mark},
    (∀ x ∈ xs, x.offset < close ∧ (x.char = ' ' ∨ x.char = '\n')) →
      pieces close depth start (xs ++ rest) = pieces close depth start rest
  | [], _ => rfl
  | x :: xs, h => by
      obtain ⟨⟨hx, hc⟩, hxs⟩ := List.forall_mem_cons.mp h
      rw [List.cons_append, pieces, if_neg (Nat.not_le_of_lt hx), pieces_skip depth start hxs]
      have hother : isOpener x.char = false ∧ isCloser x.char = false ∧
          (x.char == ',') = false := by
        rcases hc with hc | hc <;> rw [hc] <;> exact ⟨rfl, rfl, rfl⟩
      simp only [hother, Bool.false_and, Bool.false_eq_true, if_false, ite_self]

/-- Without the comments a literal is cut at the same places. -/
theorem pieces_spread : ∀ (ms : List Mark) (depth : Int) (start : Nat),
    (∀ m ∈ ms, m.offset < close → m.offset + m.char.utf8Size ≤ close) →
      pieces close depth start (ms.flatMap Mark.spread) = pieces close depth start ms
  | [], _, _, _ => rfl
  | m :: ms, depth, start, h => by
      obtain ⟨hm, hms⟩ := List.forall_mem_cons.mp h
      have ih := fun depth start => pieces_spread ms depth start hms
      rw [List.flatMap_cons]
      by_cases hk : m.kind = .comment
      · have hcomment : (m.kind != .code) = true := by rw [hk]; rfl
        by_cases hclose : close ≤ m.offset
        · obtain ⟨c, xs, hxs⟩ := exists_spread_cons hk
          rw [hxs, List.cons_append, pieces, if_pos hclose, pieces, if_pos hclose]
        · have hskip : ∀ x ∈ m.spread, x.offset < close ∧ (x.char = ' ' ∨ x.char = '\n') :=
            fun x hx => by
            obtain ⟨-, hx, -, hc⟩ := of_mem_spread hk hx
            exact ⟨Nat.lt_of_lt_of_le hx (hm (Nat.lt_of_not_le hclose)), hc⟩
          rw [pieces_skip depth start hskip, ih, pieces, if_neg hclose, if_pos hcomment]
      · rw [Mark.spread_of_ne hk, List.singleton_append, pieces, pieces]
        simp only [ih]

/-- In every piece of the literal that is opened at an offset the comments stand elsewhere than
right behind the key or right behind its colon. -/
def Plain (t : Text) (n : Nat) : Prop :=
  ∀ close ∈ matchingClose? t n, ∀ x ∈ pieces close 0 (n + 1) (marks t (n + 1)),
    ObjectEntry.Plain t x.1 x.2

instance (t : Text) (n : Nat) : Decidable (Plain t n) :=
  inferInstanceAs (Decidable (∀ close ∈ matchingClose? t n, ∀ x ∈ pieces close 0 (n + 1) _,
    ObjectEntry.Plain t x.1 x.2))

/-- Behind a brace outside of every region what is left is scanned like the text. -/
theorem marks_behind_uncomment (h : OpensAt t .brace n) :
    marks t (n + 1) <:+ marks t 0 ∧
      marks (uncomment t) (n + 1) = (marks t (n + 1)).flatMap Mark.spread ∧
      matchingClose? (uncomment t) n = matchingClose? t n ∧ ∃ rest,
      (uncomment t).after n = '\x7b' :: rest := by
  obtain ⟨p, q, ms, rfl, rfl, hp, hmarks⟩ := h.cut
  have hopen : ∀ (u v : Text), Text.size u = Text.size p →
      marks (u ++ Bracket.brace.opener :: v) (Text.size p + 1) =
      marksFrom .start (Text.size p + 1) v :=
    fun u v hu => by
      have hafter := Text.after_append_cons u Bracket.brace.opener v
      rw [Bracket.utf8Size_opener, hu] at hafter
      rw [marks, hafter]
  have hleft : uncomment (p ++ Bracket.brace.opener :: q) = ms.flatMap Mark.uncomment ++
      Bracket.brace.opener :: (marksFrom .start (Text.size p + 1) q).flatMap Mark.uncomment := by
    rw [uncomment, hmarks, List.flatMap_append, List.flatMap_cons]
    rfl
  have hsize : Text.size (ms.flatMap Mark.uncomment) = Text.size p := by
    rw [size_flatMap_uncomment, hp]
  have hscan : marksFrom .start (Text.size p + 1)
      ((marksFrom .start (Text.size p + 1) q).flatMap Mark.uncomment) =
        (marksFrom .start (Text.size p + 1) q).flatMap Mark.spread :=
    marksFrom_uncomment q .start (Text.size p + 1)
  rw [hleft, hopen p q rfl, hopen _ _ hsize, hscan, matchingClose?_opener _ rfl,
    matchingClose?_opener _ hsize.symm, hscan, closeIn_spread, ← hsize, Text.after_append]
  exact ⟨⟨ms ++ [⟨Text.size p, Bracket.brace.opener, .code⟩], by rw [hmarks, hsize]; simp⟩, rfl,
    rfl, _, rfl⟩

/-- Without the comments a literal is the same, but for the ends of its values. -/
theorem readAt?_uncomment (h : OpensAt t .brace n) (hplain : Plain t n) :
    Option.Rel Like (readAt? t n) (readAt? (uncomment t) n) := by
  obtain ⟨hsuffix, hmarks, hclose, rest, hafter⟩ := marks_behind_uncomment h
  obtain ⟨σ, hvisit, -⟩ := id h
  have hbrace : ⟨n, '\x7b', .code⟩ ∈ marks t 0 := by
    have hall : (visits t).map (·.1) = marks t 0 := by
      rw [visits, map_fst_visitsFrom, marks_zero]
    rw [← hall]
    exact List.mem_map_of_mem hvisit
  obtain ⟨p, q, ms, ht, hn, -⟩ := h.cut
  have hopen : t.after n = '\x7b' :: q := by
    rw [ht, hn, Text.after_append]
    rfl
  rw [readAt?, hopen, readAt?, hafter]
  simp only [hclose]
  cases hc : matchingClose? t n with
  | none => exact .none
  | some close =>
      have hbounds : t.IsBoundary close := (bounds_of_matchingClose? hc).1.stop
      refine .some ⟨rfl, rfl, ?_⟩
      simp only [hmarks]
      rw [pieces_spread _ _ _ fun m hm hlt =>
        ObjectEntry.behind_of_isBoundary (hsuffix.subset hm) hbounds hlt]
      refine List.rel_filterMap (fun _ _ h => h) (List.forall₂_same.mpr fun x hx => ?_)
      obtain ⟨hplace, -⟩ := isBoundary_of_mem_pieces hc hx
      refine ObjectEntry.read?_uncomment ?_ hplace (hplain close hc x hx)
      -- a piece starts behind the brace or behind a comma in code
      rcases (of_mem_pieces hx).1 with hstart | ⟨i, hi, hstart⟩
      · rw [hstart]
        exact codePlace_behind hbrace
      · rw [hstart]
        exact codePlace_behind (hsuffix.subset hi)

theorem readAt?_uncomment_of_head (h : (t.after n).head? ≠ some '\x7b') :
    readAt? (uncomment t) n = none := by
  refine readAt?_of_head fun hhead => h ?_
  obtain ⟨w, hw⟩ := List.head?_eq_some_iff.mp hhead
  have hplace : (uncomment t).IsBoundary n := by
    by_contra hn
    rw [Text.after, Option.not_isSome_iff_eq_none.mp hn] at hw
    cases hw
  obtain ⟨u, v, hu, rfl⟩ := Text.isBoundary_iff.mp hplace
  rw [hu, Text.after_append] at hw
  subst hw
  obtain ⟨ms, k, ms', hmarks, -⟩ := exists_marks_cut u '\x7b' w
  have hmem : ⟨Text.size u, '\x7b', k⟩ ∈ marks (uncomment t) 0 := by
    rw [hu, hmarks]
    exact List.mem_append_right _ List.mem_cons_self
  rw [marks_uncomment] at hmem
  obtain ⟨m, hm, hspread⟩ := List.mem_flatMap.mp hmem
  by_cases hk : m.kind = .comment
  · obtain ⟨-, -, -, hc⟩ := of_mem_spread hk hspread
    have hno : ¬ (('\x7b' : Char) = ' ' ∨ ('\x7b' : Char) = '\n') := by decide
    exact absurd hc hno
  · rw [Mark.spread_of_ne hk] at hspread
    obtain rfl := List.mem_singleton.mp hspread
    obtain ⟨p, q, ht, hoffset, -⟩ := exists_of_mem_marks hm
    simp only at hoffset
    rw [hoffset, ht, Text.after_append]
    rfl

end ObjectLiteral

end ServiceGate
